import ArithCircuit.Expr
import ArithCircuit.Proofs.Tokens
import ArithCircuit.Residue.Pasta

/-! The written form identifies an expression. A signed numeral is read back as the residue that it
was written for, and its magnitude is at most half the modulus. In the text of an expression the
character behind the leading numeral tells what kind of expression it is, and the text ends where
nothing can go on with it. Two expressions with the same text are therefore the same tree, whether
or not they are simplified. -/
namespace ArithCircuit

namespace Numeral

/-- The digits behind a minus sign, or nothing when there is no sign. -/
def unsigned? : List Char → Option (List Char)
  | '-' :: digits => some digits
  | _ => none

theorem unsigned?_of_not_mem {text : List Char} (h : '-' ∉ text) : unsigned? text = none := by
  unfold unsigned?
  split
  · exact absurd List.mem_cons_self h
  · rfl

end Numeral

namespace Residue

open Numeral

variable {p : Nat}

/-- Read a decimal numeral behind an optional minus sign, and leave the sign out. -/
def magnitude (text : String) : Except NumeralError (Residue p) :=
  ofDecimal (((unsigned? text.toList).map String.ofList).getD text)

/-- Read a decimal numeral behind an optional minus sign, which negates what is read. -/
def ofSigned (text : String) : Except NumeralError (Residue p) :=
  (magnitude text).map fun x => if (unsigned? text.toList).isSome then -x else x

theorem magnitude_toDecimal (a : Residue p) :
    magnitude a.toDecimal = .ok a ∧ ofSigned a.toDecimal = .ok a := by
  have hNone : unsigned? a.toDecimal.toList = none :=
    unsigned?_of_not_mem (Text.avoids_repr (by decide) a.val)
  have hRead : magnitude a.toDecimal = .ok a := by
    rw [magnitude, hNone]
    exact ofDecimal_toDecimal a
  refine ⟨hRead, ?_⟩
  rw [ofSigned, hRead, hNone]
  rfl

theorem magnitude_minus (a : Residue p) :
    magnitude ("-" ++ a.toDecimal) = .ok a ∧ ofSigned ("-" ++ a.toDecimal) = .ok (-a) := by
  have hSome : unsigned? ("-" ++ a.toDecimal).toList = some a.toDecimal.toList := by
    rw [String.toList_append]
    rfl
  have hRead : magnitude ("-" ++ a.toDecimal) = .ok a := by
    rw [magnitude, hSome, Option.map_some, String.ofList_toList]
    exact ofDecimal_toDecimal a
  refine ⟨hRead, ?_⟩
  rw [ofSigned, hRead, hSome]
  rfl

/-- Of a residue and its negation, the one that is written is at most half the modulus. -/
theorem signed_cases (a : Residue p) :
    2 * a.val ≤ p ∧ a.signed = a.toDecimal ∨
      2 * (-a).val < p ∧ a.signed = "-" ++ (-a).toDecimal := by
  have hLess := a.isLt
  have hNeg : a.val = 0 ∧ (-a).val = 0 ∨ (-a).val = p - a.val := by
    rw [val_neg]
    by_cases hZero : a.val = 0
    · exact .inl ⟨hZero, by rw [hZero, Nat.sub_zero, Nat.mod_self]⟩
    · exact .inr (Nat.mod_eq_of_lt (by omega))
  rw [signed]
  split_ifs with hSmaller
  · exact .inr ⟨by omega, rfl⟩
  · exact .inl ⟨by omega, rfl⟩

/-- A signed numeral is read back, and what stands behind its sign is at most half the modulus. -/
theorem ofSigned_signed [Modulus p] (a : Residue p) :
    ∃ size : Residue p, magnitude a.signed = .ok size ∧ 2 * size.val ≤ p ∧
      ofSigned a.signed = .ok a := by
  rcases a.signed_cases with ⟨hHalf, hText⟩ | ⟨hHalf, hText⟩
  · obtain ⟨hMagnitude, hRead⟩ := a.magnitude_toDecimal
    rw [hText]
    exact ⟨a, hMagnitude, hHalf, hRead⟩
  · obtain ⟨hMagnitude, hRead⟩ := (-a).magnitude_minus
    rw [neg_neg] at hRead
    rw [hText]
    exact ⟨-a, hMagnitude, hHalf.le, hRead⟩

end Residue

namespace Expr

open Text

variable {p : Nat} {a b : Expr p} {rest rest' : List Char}

/-- The numeral with which the text of an expression begins, if it begins with one. -/
def lead : Expr p → List Char
  | .const value => value.signed.toList
  | .var _ => []
  | .add _ _ => []
  | .scale factor _ => factor.signed.toList

/-- The text of an expression behind its leading numeral. -/
def trail : Expr p → List Char
  | .const _ => []
  | .var index => 'v' :: Nat.toDigits 10 index
  | .add left right =>
    '(' :: (left.text.toList ++ ' ' :: '+' :: ' ' :: (right.text.toList ++ [')']))
  | .scale _ body => '*' :: body.text.toList

/-- The character behind the leading numeral. It differs for the four kinds of expressions. -/
def mark : Expr p → Option Char
  | .const _ => none
  | .var _ => some 'v'
  | .add _ _ => some '('
  | .scale _ _ => some '*'

theorem text_toList (e : Expr p) : e.text.toList = e.lead ++ e.trail := by
  cases e <;> simp [text, lead, trail]

/-- What can follow the text of an expression: nothing, or what goes on with the sum around it. -/
inductive Ends : List Char → Prop where
  | nothing : Ends []
  | plus (rest : List Char) : Ends (' ' :: rest)
  | close (rest : List Char) : Ends (')' :: rest)

theorem Ends.takeWhile_eq_nil {run : Char → Bool} (h : Ends rest) (hPlus : run ' ' = false)
    (hClose : run ')' = false) : rest.takeWhile run = [] := by
  cases h with
  | nothing => rfl
  | plus rest => exact List.takeWhile_cons_of_neg (by simp [hPlus])
  | close rest => exact List.takeWhile_cons_of_neg (by simp [hClose])

/-- The characters of signed numerals. -/
def inNumeral (c : Char) : Bool := c.isDigit || c == '-'

theorem inNumeral_of_mem_signed (x : Residue p) : ∀ c ∈ x.signed.toList, inNumeral c = true := by
  intro c hc
  by_contra hOther
  rw [inNumeral, Bool.or_eq_true, not_or, Bool.not_eq_true, beq_iff_eq] at hOther
  exact x.avoids_signed hOther.1 hOther.2 hc

theorem inNumeral_of_mem_lead (e : Expr p) : ∀ c ∈ e.lead, inNumeral c = true := by
  cases e with
  | const x => exact inNumeral_of_mem_signed x
  | var index => exact fun _ hc => absurd hc List.not_mem_nil
  | add left right => exact fun _ hc => absurd hc List.not_mem_nil
  | scale factor body => exact inNumeral_of_mem_signed factor

theorem takeWhile_trail (e : Expr p) (hRest : Ends rest) :
    (e.trail ++ rest).takeWhile inNumeral = [] := by
  cases e with
  | const x => exact hRest.takeWhile_eq_nil (by decide) (by decide)
  | var index => exact List.takeWhile_cons_of_neg (by decide)
  | add left right => exact List.takeWhile_cons_of_neg (by decide)
  | scale factor body => exact List.takeWhile_cons_of_neg (by decide)

/-- The mark is what comes next, unless that already ends the expression. -/
theorem mark_eq (e : Expr p) (hRest : Ends rest) :
    e.mark = (e.trail ++ rest).head?.filter fun c => c ≠ ' ' && c ≠ ')' := by
  cases e with
  | const x => cases hRest <;> rfl
  | var index => rfl
  | add left right => rfl
  | scale factor body => rfl

/-- The leading numeral can be split off, and the same mark follows it. -/
theorem text_split (hRest : Ends rest) (hRest' : Ends rest')
    (h : a.text.toList ++ rest = b.text.toList ++ rest') :
    a.lead = b.lead ∧ a.mark = b.mark ∧ a.trail ++ rest = b.trail ++ rest' := by
  rw [text_toList, text_toList, List.append_assoc, List.append_assoc] at h
  obtain ⟨hLead, hTrail⟩ := run_append_inj a.inNumeral_of_mem_lead b.inNumeral_of_mem_lead
    (a.takeWhile_trail hRest) (b.takeWhile_trail hRest') h
  refine ⟨hLead, ?_, hTrail⟩
  rw [a.mark_eq hRest, hTrail, ← b.mark_eq hRest']

/-- The text of an expression can be split off from whatever may follow it. -/
theorem text_append_inj [Modulus p] (hRest : Ends rest) (hRest' : Ends rest')
    (h : a.text.toList ++ rest = b.text.toList ++ rest') : a = b ∧ rest = rest' := by
  -- By induction on one tree for every other one: equal marks leave only the same constructor.
  induction a generalizing b rest rest' with
  | const x =>
      obtain ⟨hLead, hMark, hTrail⟩ := text_split hRest hRest' h
      cases b with
      | const y =>
          obtain rfl := Residue.signed_injective (String.toList_inj.mp hLead)
          exact ⟨rfl, hTrail⟩
      | var _ | add _ _ | scale _ _ => simp [mark] at hMark
  | var index =>
      obtain ⟨-, hMark, hTrail⟩ := text_split hRest hRest' h
      cases b with
      | var index' =>
          have hDigit (n : Nat) : ∀ c ∈ Nat.toDigits 10 n, c.isDigit = true := fun _ hc =>
            Nat.isDigit_of_mem_toDigits (by decide) (by decide) hc
          obtain ⟨hDigits, hEnd⟩ := run_append_inj (hDigit index) (hDigit index')
            (hRest.takeWhile_eq_nil (by decide) (by decide))
            (hRest'.takeWhile_eq_nil (by decide) (by decide)) (List.cons.inj hTrail).2
          rw [← Nat.toList_repr, ← Nat.toList_repr, String.toList_inj, Nat.repr_inj] at hDigits
          exact ⟨congrArg Expr.var hDigits, hEnd⟩
      | const _ | add _ _ | scale _ _ => simp [mark] at hMark
  | add left right ihLeft ihRight =>
      obtain ⟨-, hMark, hTrail⟩ := text_split hRest hRest' h
      cases b with
      | add left' right' =>
          simp only [trail, List.cons_append, List.append_assoc, List.nil_append,
            List.cons.injEq, true_and] at hTrail
          obtain ⟨rfl, hPlus⟩ := ihLeft (.plus _) (.plus _) hTrail
          simp only [List.cons.injEq, true_and] at hPlus
          obtain ⟨rfl, hClose⟩ := ihRight (.close _) (.close _) hPlus
          exact ⟨rfl, (List.cons.inj hClose).2⟩
      | const _ | var _ | scale _ _ => simp [mark] at hMark
  | scale factor body ih =>
      obtain ⟨hLead, hMark, hTrail⟩ := text_split hRest hRest' h
      cases b with
      | scale factor' body' =>
          obtain rfl := Residue.signed_injective (String.toList_inj.mp hLead)
          obtain ⟨rfl, hEnd⟩ := ih hRest hRest' (List.cons.inj hTrail).2
          exact ⟨rfl, hEnd⟩
      | const _ | var _ | add _ _ => simp [mark] at hMark

theorem text_injective [Modulus p] (h : a.text = b.text) : a = b := by
  have hChars : a.text.toList ++ [] = b.text.toList ++ [] := by rw [h]
  exact (text_append_inj .nothing .nothing hChars).1

/-- The written form identifies an expression, of any shape and over any modulus, and the signed
numeral a residue. A signed numeral is read back as its residue. Without its sign it is at most half
the modulus, which for an odd one is `(p - 1) / 2`. -/
theorem text_identifies [Modulus p] (a b : Expr p) (x y : Residue p) :
    (a.text = b.text ↔ a = b) ∧ (x.signed = y.signed ↔ x = y) ∧
    ∃ size : Residue p, Residue.magnitude x.signed = .ok size ∧
      Residue.ofSigned x.signed = .ok x ∧ 2 * size.val ≤ p ∧
      (Odd p → size.val ≤ (p - 1) / 2) := by
  obtain ⟨size, hMagnitude, hHalf, hRead⟩ := x.ofSigned_signed
  refine ⟨⟨text_injective, fun h => h ▸ rfl⟩, ⟨Residue.signed_injective, fun h => h ▸ rfl⟩,
    size, hMagnitude, hRead, hHalf, ?_⟩
  rintro ⟨half, rfl⟩
  omega

/-- An expression that is not simplified, and the first residue that is written with a sign. -/
theorem text_identifies_half :
    let a : Expr pallasPrime := .add (.scale (-(1 + 1)) (.scale 1 (.var 3))) (.const 0)
    let x := Residue.ofNat pallasPrime ((pallasPrime + 1) / 2)
    (∀ b : Expr pallasPrime, b.text = "(-2*1*v3 + 0)" ↔ b = a) ∧ x.toDecimal ≠ x.signed ∧
      ∃ size : Residue pallasPrime, Residue.magnitude x.signed = .ok size ∧
        Residue.ofSigned x.signed = .ok x ∧ size.val ≤ (pallasPrime - 1) / 2 := by
  intro a x
  have hText : a.text = "(-2*1*v3 + 0)" := by decide +kernel
  obtain ⟨-, -, size, hMagnitude, hRead, -, hHalf⟩ := text_identifies a a x x
  refine ⟨fun b => ?_, by decide +kernel, size, hMagnitude, hRead, hHalf (by decide +kernel)⟩
  rw [← hText]
  exact (text_identifies b a x x).1

end Expr

end ArithCircuit
