import ArithCircuit.Proofs.Numeral
import ArithCircuit.Proofs.Residue
import Std.Data.String.ToNat

/-! Texts that can be taken apart. A text of lines is read back line by line, and a sequence of
tokens token by token, as long as no token contains the character at which it ends. Numerals are
made of digits and perhaps a sign, and contain nothing that separates. -/
namespace ArithCircuit

namespace Text

/-- Lists are read up to the first occurrence of an item. -/
theorem append_cons_inj {α : Type} {a : α} {xs ys rest rest' : List α} (hxs : a ∉ xs)
    (hys : a ∉ ys) (h : xs ++ a :: rest = ys ++ a :: rest') : xs = ys ∧ rest = rest' := by
  induction xs generalizing ys with
  | nil =>
      cases ys with
      | nil => exact ⟨rfl, (List.cons.inj h).2⟩
      | cons y ys =>
          have hHead : a = y := (List.cons.inj h).1
          exact absurd (hHead ▸ List.mem_cons_self) hys
  | cons x xs ih =>
      cases ys with
      | nil =>
          have hHead : x = a := (List.cons.inj h).1
          exact absurd (hHead ▸ List.mem_cons_self) hxs
      | cons y ys =>
          obtain ⟨rfl, hRest⟩ := List.cons.inj h
          obtain ⟨rfl, hEnd⟩ := ih (fun hMem => hxs (List.mem_cons_of_mem _ hMem))
            (fun hMem => hys (List.mem_cons_of_mem _ hMem)) hRest
          exact ⟨rfl, hEnd⟩

/-- Lists are read up to the end of a run, if what follows does not go on with it. -/
theorem run_append_inj {α : Type} {run : α → Bool} {xs ys rest rest' : List α}
    (hxs : ∀ x ∈ xs, run x = true) (hys : ∀ y ∈ ys, run y = true) (hRest : rest.takeWhile run = [])
    (hRest' : rest'.takeWhile run = []) (h : xs ++ rest = ys ++ rest') :
    xs = ys ∧ rest = rest' := by
  have hRun := congrArg (List.takeWhile run) h
  rw [List.takeWhile_append_of_pos hxs, List.takeWhile_append_of_pos hys, hRest, hRest',
    List.append_nil, List.append_nil] at hRun
  subst hRun
  exact ⟨rfl, List.append_cancel_left h⟩

/-- Lists are read back if their items are. -/
theorem map_inj_on {α β : Type} {f : α → β} {xs ys : List α}
    (hInj : ∀ x ∈ xs, ∀ y ∈ ys, f x = f y → x = y) (h : xs.map f = ys.map f) : xs = ys := by
  induction xs generalizing ys with
  | nil => exact (List.map_eq_nil_iff.mp h.symm).symm
  | cons x xs ih =>
      cases ys with
      | nil => cases h
      | cons y ys =>
          obtain ⟨hHead, hTail⟩ := List.cons.inj h
          rw [hInj x List.mem_cons_self y List.mem_cons_self hHead,
            ih (fun x' hx' y' hy' => hInj x' (List.mem_cons_of_mem _ hx') y'
              (List.mem_cons_of_mem _ hy')) hTail]

/-- The character does not occur in the text. -/
def Avoids (c : Char) (text : String) : Prop := c ∉ text.toList

instance (c : Char) (text : String) : Decidable (Avoids c text) :=
  inferInstanceAs (Decidable (c ∉ text.toList))

theorem Avoids.mono {c : Char} {text text' : String} (h : Avoids c text')
    (hSubset : text.toList ⊆ text'.toList) : Avoids c text :=
  fun hMem => h (hSubset hMem)

@[simp] theorem avoids_append {c : Char} {text text' : String} :
    Avoids c (text ++ text') ↔ Avoids c text ∧ Avoids c text' := by
  simp [Avoids, not_or]

theorem avoids_intercalate {c : Char} {separator : String} {tokens : List String}
    (hSeparator : Avoids c separator) (hTokens : ∀ token ∈ tokens, Avoids c token) :
    Avoids c (separator.intercalate tokens) := by
  induction tokens with
  | nil => simp [Avoids]
  | cons token rest ih =>
      obtain ⟨hToken, hRest⟩ := List.forall_mem_cons.mp hTokens
      by_cases hLast : rest = []
      · subst hLast
        exact hToken
      · rw [String.intercalate_cons_of_ne_nil hLast, avoids_append, avoids_append]
        exact ⟨⟨hToken, hSeparator⟩, ih hRest⟩

/-- A number is written with digits. -/
theorem avoids_repr {c : Char} (hDigit : c.isDigit = false) (n : Nat) : Avoids c n.repr := by
  intro hMem
  rw [Nat.toList_repr] at hMem
  rw [Nat.isDigit_of_mem_toDigits (by decide) (by decide) hMem] at hDigit
  cases hDigit

/-- Texts are read up to a mark whose first character does not occur before it. -/
theorem append_mark_inj {mark : String} {c : Char} {tail : List Char}
    (hMark : mark.toList = c :: tail) {first first' rest rest' : String} (hFirst : Avoids c first)
    (hFirst' : Avoids c first') (h : first ++ mark ++ rest = first' ++ mark ++ rest') :
    first = first' ∧ rest = rest' := by
  have hChars := congrArg String.toList h
  simp only [String.toList_append, hMark, List.append_assoc, List.cons_append] at hChars
  obtain ⟨hSame, hRest⟩ := append_cons_inj hFirst hFirst' hChars
  exact ⟨String.toList_inj.mp hSame, String.toList_inj.mp (List.append_cancel_left hRest)⟩

/-- Tokens with a mark behind each of them. -/
def terminate (mark : String) (tokens : List String) : String :=
  String.join (tokens.map (· ++ mark))

theorem terminate_append (mark : String) (tokens tokens' : List String) :
    terminate mark (tokens ++ tokens') = terminate mark tokens ++ terminate mark tokens' := by
  rw [terminate, List.map_append, String.join_append, terminate, terminate]

theorem terminate_cons (mark token : String) (tokens : List String) :
    terminate mark (token :: tokens) = token ++ mark ++ terminate mark tokens := by
  rw [terminate, List.map_cons, String.join_cons, terminate]

theorem terminate_eq_intercalate (mark : String) (tokens : List String) :
    terminate mark tokens = mark.intercalate (tokens ++ [""]) := by
  induction tokens with
  | nil => rfl
  | cons token rest ih =>
      rw [terminate_cons, ih, List.cons_append, String.intercalate_cons_of_ne_nil (by simp)]

/-- Marked tokens can be read back if none contains the first character of the mark. -/
theorem terminate_inj {mark : String} {c : Char} {tail : List Char}
    (hMark : mark.toList = c :: tail) {tokens tokens' : List String}
    (hTokens : ∀ token ∈ tokens, Avoids c token) (hTokens' : ∀ token ∈ tokens', Avoids c token)
    (h : terminate mark tokens = terminate mark tokens') : tokens = tokens' := by
  have hSome (token : String) (rest : List String) : terminate mark (token :: rest) ≠ "" := by
    rw [terminate_cons, ne_eq, ← String.toList_inj]
    simp [hMark]
  induction tokens generalizing tokens' with
  | nil =>
      cases tokens' with
      | nil => rfl
      | cons token' rest' => exact absurd h.symm (hSome token' rest')
  | cons token rest ih =>
      cases tokens' with
      | nil => exact absurd h (hSome token rest)
      | cons token' rest' =>
          obtain ⟨hToken, hRest⟩ := List.forall_mem_cons.mp hTokens
          obtain ⟨hToken', hRest'⟩ := List.forall_mem_cons.mp hTokens'
          rw [terminate_cons, terminate_cons] at h
          obtain ⟨rfl, hNext⟩ := append_mark_inj hMark hToken hToken' h
          rw [ih hRest hRest' hNext]

/-- Separated tokens can be read back, once it is known whether there are any. -/
theorem intercalate_inj {mark : String} {c : Char} {tail : List Char}
    (hMark : mark.toList = c :: tail) {tokens tokens' : List String}
    (hTokens : ∀ token ∈ tokens, Avoids c token) (hTokens' : ∀ token ∈ tokens', Avoids c token)
    (hNone : tokens = [] ↔ tokens' = [])
    (h : mark.intercalate tokens = mark.intercalate tokens') : tokens = tokens' := by
  have hTerminate (tokens : List String) (hSome : tokens ≠ []) :
      terminate mark tokens = mark.intercalate tokens ++ mark := by
    rw [terminate_eq_intercalate,
      String.intercalate_append_of_ne_nil hSome (List.cons_ne_nil _ _)]
    exact String.append_empty
  by_cases hEmpty : tokens = []
  · rw [hEmpty, hNone.mp hEmpty]
  · apply terminate_inj hMark hTokens hTokens'
    rw [hTerminate tokens hEmpty, hTerminate tokens' fun hEmpty' => hEmpty (hNone.mpr hEmpty'), h]

theorem intercalate_eq_empty_iff {mark : String} {tokens : List String}
    (hTokens : ∀ token ∈ tokens, token ≠ "") : mark.intercalate tokens = "" ↔ tokens = [] := by
  constructor
  · intro h
    cases tokens with
    | nil => rfl
    | cons token rest =>
        have hToken := hTokens token List.mem_cons_self
        by_cases hLast : rest = []
        · rw [hLast] at h
          exact absurd h hToken
        · rw [String.intercalate_cons_of_ne_nil hLast, String.append_assoc] at h
          exact absurd (String.append_eq_empty_iff.mp h).1 hToken
  · rintro rfl
    rfl

/-- The lines of a text. Behind the last line break comes one more line, which may be empty. -/
def linesOf (text : String) : List String := (text.toList.splitOn '\n').map String.ofList

/-- Lines without line breaks are the lines of the text that they make up. -/
theorem linesOf_terminate {lines : List String} (h : ∀ line ∈ lines, Avoids '\n' line) :
    linesOf (terminate "\n" lines) = lines ++ [""] := by
  have hSplit : ['\n'].intercalate ((lines ++ [""]).map String.toList) =
      (terminate "\n" lines).toList := by
    rw [terminate_eq_intercalate, String.toList_intercalate]
    rfl
  have hLines : ∀ chars ∈ (lines ++ [""]).map String.toList, '\n' ∉ chars := by
    intro chars hChars
    obtain ⟨line, hLine, rfl⟩ := List.mem_map.mp hChars
    rcases List.mem_append.mp hLine with hLine | hLine
    · exact h line hLine
    · rw [List.mem_singleton.mp hLine]
      exact List.not_mem_nil
  rw [linesOf, ← hSplit, List.splitOn_intercalate '\n' hLines (by simp), List.map_map]
  simp

end Text

namespace Residue

open Text

variable {p : Nat}

/-- A signed numeral is made of digits, perhaps behind a minus sign. -/
theorem avoids_signed {c : Char} (hDigit : c.isDigit = false) (hSign : c ≠ '-') (a : Residue p) :
    Avoids c a.signed := by
  have hDecimal (b : Residue p) : Avoids c b.toDecimal := avoids_repr hDigit b.val
  rw [signed]
  split_ifs
  · rw [avoids_append]
    exact ⟨by simpa [Avoids] using hSign, hDecimal _⟩
  · exact hDecimal a

theorem signed_ne_empty (a : Residue p) : a.signed ≠ "" := by
  have hDecimal (b : Residue p) : b.toDecimal ≠ "" := by
    rw [ne_eq, ← String.toList_inj, toDecimal_toList]
    exact Nat.toDigits_ne_nil
  rw [signed]
  split_ifs
  · rw [ne_eq, ← String.toList_inj]
    simp
  · exact hDecimal a

/-- A sign tells the numerals of the two halves of the residues apart. -/
theorem signed_injective [Modulus p] {a b : Residue p} (h : a.signed = b.signed) : a = b := by
  have hPlain (a b : Residue p) : a.toDecimal ≠ "-" ++ b.toDecimal := by
    intro hSame
    have hSign : Avoids '-' a.toDecimal := avoids_repr (by decide) a.val
    rw [hSame, avoids_append] at hSign
    exact absurd hSign.1 (by decide)
  rw [signed, signed] at h
  split_ifs at h
  · exact neg_injective (toDecimal_injective ((String.append_right_inj _).mp h))
  · exact absurd h.symm (hPlain b (-a))
  · exact absurd h (hPlain a (-b))
  · exact toDecimal_injective h

end Residue

end ArithCircuit
