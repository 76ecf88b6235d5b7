import ArithCircuit.Residue.Numeral
import Mathlib.Algebra.Ring.Nat

/-! Numerals are read back. The digits that are written for a number denote it, in every radix up to
sixteen, and the numeral of a residue is read as that residue. -/
namespace ArithCircuit

namespace Numeral

variable {radix : Nat}

theorem digit?_digitChar (hRadix : radix ≤ 16) {d : Nat} (hd : d < radix) :
    digit? radix d.digitChar = some d := by
  have hHex : ∀ d < 16, hexDigit? d.digitChar = some d := by decide
  rw [digit?, hHex d (by omega), Option.filter_some, decide_eq_true hd]
  rfl

theorem readFrom?_append (acc : Nat) (digits more : List Char) :
    readFrom? radix acc (digits ++ more) =
      (readFrom? radix acc digits).bind fun n => readFrom? radix n more := by
  induction digits generalizing acc with
  | nil => rfl
  | cons c rest ih =>
      rw [List.cons_append, readFrom?, readFrom?]
      cases digit? radix c with
      | none => rfl
      | some d => exact ih (radix * acc + d)

/-- The digits of a number denote it. -/
theorem read?_toDigits (hRadix : 1 < radix) (hSixteen : radix ≤ 16) (n : Nat) :
    read? radix (Nat.toDigits radix n) = some n := by
  induction n using Nat.strong_induction_on with
  | _ n ih =>
      by_cases hSmall : n < radix
      · rw [Nat.toDigits_of_lt_base hSmall, read?, readFrom?, digit?_digitChar hSixteen hSmall]
        simp [readFrom?]
      · have hLess : n / radix < n := Nat.div_lt_self (by omega) hRadix
        have hDigit := digit?_digitChar hSixteen (Nat.mod_lt n (by omega : 0 < radix))
        have hHigh : readFrom? radix 0 (Nat.toDigits radix (n / radix)) = some (n / radix) :=
          ih (n / radix) hLess
        rw [Nat.toDigits_of_base_le hRadix (by omega), read?, readFrom?_append, hHigh,
          Option.bind_some, readFrom?, hDigit]
        simp only [readFrom?, Nat.div_add_mod]

/-- A run of decimal digits has no hexadecimal mark. -/
theorem unmarked?_toDigits (n : Nat) : unmarked? (Nat.toDigits 10 n) = none := by
  have hDigit {c : Char} (hc : c ∈ Nat.toDigits 10 n) : c.isDigit = true :=
    Nat.isDigit_of_mem_toDigits (by decide) (by decide) hc
  generalize Nat.toDigits 10 n = digits at hDigit
  unfold unmarked?
  split
  · exact absurd (hDigit (c := 'x') (by simp)) (by decide)
  · exact absurd (hDigit (c := 'X') (by simp)) (by decide)
  · rfl

end Numeral

namespace Residue

variable {p : Nat}

theorem toDecimal_toList (a : Residue p) : a.toDecimal.toList = Nat.toDigits 10 a.val := by
  rw [toDecimal, Nat.repr_eq_ofList_toDigits, String.toList_ofList]

/-- The decimal numeral of a residue is read as that residue. -/
theorem ofDecimal_toDecimal (a : Residue p) : ofDecimal a.toDecimal = .ok a := by
  simp only [ofDecimal, ofDigits, toDecimal_toList, Nat.toDigits_ne_nil, if_false]
  rw [Numeral.read?_toDigits (by decide) (by decide)]
  simp only [ofCanonical, dif_pos a.isLt]

theorem ofNumeral_toDecimal (a : Residue p) : ofNumeral a.toDecimal = .ok a := by
  rw [ofNumeral, toDecimal_toList, Numeral.unmarked?_toDigits]
  exact ofDecimal_toDecimal a

theorem toDecimal_injective {a b : Residue p} (h : a.toDecimal = b.toDecimal) : a = b := by
  apply Except.ok.inj
  rw [← ofNumeral_toDecimal a, h, ofNumeral_toDecimal]

end Residue

end ArithCircuit
