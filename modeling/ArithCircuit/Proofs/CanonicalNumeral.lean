import ArithCircuit.Proofs.Numeral
import ArithCircuit.Proofs.Traversal
import ArithCircuit.Residue.Pasta
import Mathlib.Data.Nat.Digits.Defs

/-! Which texts are numerals. The grammar is stated apart from the reader: digits are the characters
of two alphabets, a run of digits denotes a number by its positions, and a numeral is a run of
decimal digits, or one of hexadecimal digits behind a mark. The reader accepts exactly the numerals
of numbers below the modulus, and its errors say what is wrong with any other text. -/
namespace ArithCircuit

namespace Numeral

/-- The digits in the order of their values. -/
def lowerDigits : List Char := "0123456789abcdef".toList

/-- The digits in the order of their values, with capital letters. -/
def upperDigits : List Char := "0123456789ABCDEF".toList

/-- The character is a digit of the radix with the given value. -/
def Writes (radix : Nat) (c : Char) (d : Nat) : Prop :=
  d < radix ∧ (lowerDigits[d]? = some c ∨ upperDigits[d]? = some c)

/-- The number that a run of digits denotes by their positions, the most significant first. -/
def Denotes (radix : Nat) (text : List Char) (n : Nat) : Prop :=
  ∃ digits, List.Forall₂ (Writes radix) text digits ∧ n = Nat.ofDigits radix digits.reverse

/-- The text is a hexadecimal mark and what follows it. -/
def Marked (text digits : List Char) : Prop :=
  ∃ mark, (mark = 'x' ∨ mark = 'X') ∧ text = '0' :: mark :: digits

/-- The numerals and the numbers that they denote. -/
inductive Spells (text : List Char) (n : Nat) : Prop where
  | decimal (hSome : text ≠ []) (hDenotes : Denotes 10 text n)
  | hexadecimal {digits : List Char} (hMarked : Marked text digits) (hSome : digits ≠ [])
      (hDenotes : Denotes 16 digits n)

/-- What is wrong with a text that is not the numeral of a number below the modulus. -/
inductive Refuted (p : Nat) (text : String) : NumeralError → Prop where
  | empty (hEmpty : text.toList = [] ∨ Marked text.toList []) : Refuted p text .empty
  | notCanonical {n : Nat} (hSpells : Spells text.toList n) (hLarge : p ≤ n) :
      Refuted p text (.notCanonical n)
  | notHexadecimal {digits : List Char} (hMarked : Marked text.toList digits)
      (hOther : ∃ c ∈ digits, ∀ d, ¬ Writes 16 c d) : Refuted p text (.notHexadecimal text)
  | notDecimal (hPlain : ∀ digits, ¬ Marked text.toList digits)
      (hOther : ∃ c ∈ text.toList, ∀ d, ¬ Writes 10 c d) : Refuted p text (.notDecimal text)

/-- A run of digits without the zeros in front of it; of zeros alone, one stays. -/
def withoutLeadingZeros (digits : List Char) : List Char :=
  if digits.dropWhile (· = '0') = [] then ['0'] else digits.dropWhile (· = '0')

variable {radix n : Nat} {text digits : List Char}

/-- A character with a value is in one of the alphabets, at the position of its value. -/
theorem hexDigit?_eq_some_iff {c : Char} {d : Nat} :
    hexDigit? c = some d ↔ lowerDigits[d]? = some c ∨ upperDigits[d]? = some c := by
  constructor
  · intro h
    have hAscii : c.toNat < 128 := by
      rw [hexDigit?] at h
      simp only [Char.le_def, UInt32.le_iff_toNat_le] at h
      split_ifs at h with hDecimal hLower hUpper
      · exact hDecimal.2.trans_lt (by decide)
      · exact hLower.2.trans_lt (by decide)
      · exact hUpper.2.trans_lt (by decide)
    have hAll : ∀ n < 128, (hexDigit? (Char.ofNat n)).all fun d =>
        lowerDigits[d]? = some (Char.ofNat n) ∨ upperDigits[d]? = some (Char.ofNat n) := by decide
    have hOne := hAll c.toNat hAscii
    rw [Char.ofNat_toNat, h, Option.all_some] at hOne
    exact of_decide_eq_true hOne
  · intro h
    have hSmall : d < 16 := by
      rcases h with h | h
      · exact (List.getElem?_eq_some_iff.mp h).1
      · exact (List.getElem?_eq_some_iff.mp h).1
    have hAll : ∀ d < 16, (lowerDigits[d]?.all fun c => hexDigit? c = some d) ∧
        upperDigits[d]?.all fun c => hexDigit? c = some d := by decide
    rcases h with h | h
    · simpa [h] using (hAll d hSmall).1
    · simpa [h] using (hAll d hSmall).2

theorem digit?_eq_some_iff {c : Char} {d : Nat} :
    digit? radix c = some d ↔ Writes radix c d := by
  rw [digit?, Option.filter_eq_some_iff, hexDigit?_eq_some_iff, decide_eq_true_iff, and_comm, Writes]

/-- The reader adds the positional value of the digits to what was read before them. -/
theorem readFrom?_eq_some_iff {acc : Nat} :
    readFrom? radix acc text = some n ↔ ∃ digits, List.Forall₂ (Writes radix) text digits ∧
      n = radix ^ text.length * acc + Nat.ofDigits radix digits.reverse := by
  induction text generalizing acc with
  | nil => simp [readFrom?, eq_comm]
  | cons c rest ih =>
      have hPlace (d : Nat) (digits : List Nat) (hLength : rest.length = digits.length) :
          radix ^ rest.length * (radix * acc + d) + Nat.ofDigits radix digits.reverse =
            radix ^ (c :: rest).length * acc + Nat.ofDigits radix (d :: digits).reverse := by
        rw [List.reverse_cons, Nat.ofDigits_append, Nat.ofDigits_singleton, List.length_reverse,
          List.length_cons, pow_succ, ← hLength]
        ring
      rw [readFrom?]
      cases hDigit : digit? radix c with
      | none =>
          simp only [reduceCtorEq, false_iff, not_exists, not_and]
          intro digits hDigits
          obtain ⟨d, -, hWrites, -, -⟩ := List.forall₂_cons_left_iff.mp hDigits
          rw [digit?_eq_some_iff.mpr hWrites] at hDigit
          cases hDigit
      | some d =>
          have hd := digit?_eq_some_iff.mp hDigit
          simp only [ih]
          constructor
          · rintro ⟨digits, hDigits, rfl⟩
            exact ⟨d :: digits, .cons hd hDigits, hPlace d digits hDigits.length_eq⟩
          · rintro ⟨digits, hDigits, rfl⟩
            obtain ⟨d', rest', hWrites, hRest, rfl⟩ := List.forall₂_cons_left_iff.mp hDigits
            rw [digit?_eq_some_iff.mpr hWrites] at hDigit
            obtain rfl := Option.some.inj hDigit
            exact ⟨rest', hRest, (hPlace d' rest' hRest.length_eq).symm⟩

theorem read?_eq_some_iff : read? radix text = some n ↔ Denotes radix text n := by
  simp only [read?, readFrom?_eq_some_iff, Denotes, Nat.mul_zero, Nat.zero_add]

/-- A run cannot be read only because of a character that is no digit. -/
theorem read?_eq_none_iff :
    read? radix text = none ↔ ∃ c ∈ text, ∀ d, ¬ Writes radix c d := by
  have hFrom (acc : Nat) :
      readFrom? radix acc text = none ↔ ∃ c ∈ text, ∀ d, ¬ Writes radix c d := by
    induction text generalizing acc with
    | nil => simp [readFrom?]
    | cons c rest ih =>
        rw [readFrom?, List.exists_mem_cons_iff]
        cases hDigit : digit? radix c with
        | none =>
            have hNone (d : Nat) : ¬ Writes radix c d := by
              rw [← digit?_eq_some_iff, hDigit]
              exact Option.some_ne_none d |>.symm
            simp [hNone]
        | some d =>
            have hWrites : ¬ ∀ d, ¬ Writes radix c d := fun hNone =>
              hNone d (digit?_eq_some_iff.mp hDigit)
            simp only [ih, hWrites, false_or]
  exact hFrom 0

theorem unmarked?_eq_some_iff : unmarked? text = some digits ↔ Marked text digits := by
  unfold unmarked?
  split
  · simp [Marked, eq_comm]
  · simp [Marked, eq_comm]
  · rename_i hLower hUpper
    simp only [reduceCtorEq, false_iff]
    rintro ⟨mark, rfl | rfl, rfl⟩
    · exact hLower digits rfl
    · exact hUpper digits rfl

theorem Marked.eq {digits' : List Char} (h : Marked text digits) (h' : Marked text digits') :
    digits = digits' := by
  rw [← unmarked?_eq_some_iff] at h h'
  exact Option.some.inj (h.symm.trans h')

/-- A decimal digit is the numeral of its value. -/
theorem Writes.toDigits {c : Char} {d : Nat} (h : Writes 10 c d) : Nat.toDigits 10 d = [c] := by
  obtain ⟨hLess, hWrites⟩ := h
  have hAll : ∀ d < 10, (lowerDigits[d]?.all fun c => Nat.toDigits 10 d = [c]) ∧
      upperDigits[d]?.all fun c => Nat.toDigits 10 d = [c] := by decide
  rcases hWrites with hLower | hUpper
  · simpa [hLower] using (hAll d hLess).1
  · simpa [hUpper] using (hAll d hLess).2

theorem Denotes.isDigit (h : Denotes 10 text n) : ∀ c ∈ text, c.isDigit = true := by
  obtain ⟨digits, hDigits, -⟩ := h
  intro c hc
  obtain ⟨d, -, hWrites⟩ := Traversal.exists_of_mem_right hDigits.flip hc
  have hMem : c ∈ Nat.toDigits 10 d := by
    rw [Writes.toDigits hWrites]
    exact List.mem_singleton_self c
  exact Nat.isDigit_of_mem_toDigits (by decide) (by decide) hMem

/-- Behind a zero, a mark is a letter. -/
theorem Marked.exists_not_isDigit (h : Marked text digits) : ∃ c ∈ text, c.isDigit = false := by
  obtain ⟨mark, hMark, rfl⟩ := h
  refine ⟨mark, by simp, ?_⟩
  rcases hMark with rfl | rfl <;> decide

/-- Behind a mark only hexadecimal digits make a numeral. -/
theorem Marked.spells_iff (h : Marked text digits) :
    Spells text n ↔ digits ≠ [] ∧ Denotes 16 digits n := by
  constructor
  · intro hSpells
    cases hSpells with
    | decimal hSome hDenotes =>
        obtain ⟨c, hc, hLetter⟩ := h.exists_not_isDigit
        rw [hDenotes.isDigit c hc] at hLetter
        cases hLetter
    | hexadecimal hMarked hSome hDenotes =>
        rw [h.eq hMarked]
        exact ⟨hSome, hDenotes⟩
  · exact fun hDigits => .hexadecimal h hDigits.1 hDigits.2

/-- Without a mark only decimal digits do. -/
theorem spells_iff_of_plain (h : ∀ digits, ¬ Marked text digits) :
    Spells text n ↔ text ≠ [] ∧ Denotes 10 text n := by
  constructor
  · intro hSpells
    cases hSpells with
    | decimal hSome hDenotes => exact ⟨hSome, hDenotes⟩
    | hexadecimal hMarked hSome hDenotes => exact absurd hMarked (h _)
  · exact fun hDigits => .decimal hDigits.1 hDigits.2

/-- Digits after a positive number extend its numeral. -/
theorem toDigits_append_of_readFrom? {acc : Nat} (hAcc : 0 < acc)
    (h : readFrom? 10 acc text = some n) :
    Nat.toDigits 10 acc ++ text = Nat.toDigits 10 n := by
  induction text generalizing acc with
  | nil =>
      obtain rfl := Option.some.inj h
      exact List.append_nil _
  | cons c rest ih =>
      rw [readFrom?] at h
      cases hDigit : digit? 10 c with
      | none =>
          rw [hDigit] at h
          cases h
      | some d =>
          rw [hDigit] at h
          have hWrites := digit?_eq_some_iff.mp hDigit
          have hNext : Nat.toDigits 10 (10 * acc + d) = Nat.toDigits 10 acc ++ [c] := by
            rw [← Nat.toDigits_append_toDigits (by decide) hAcc hWrites.1, hWrites.toDigits]
          rw [← ih (by omega) h, hNext, List.append_assoc, List.singleton_append]

/-- The numeral of a number is any run of digits that denotes it, without leading zeros. -/
theorem toDigits_eq_withoutLeadingZeros (h : read? 10 text = some n) :
    Nat.toDigits 10 n = withoutLeadingZeros text := by
  rw [read?] at h
  induction text with
  | nil =>
      obtain rfl := Option.some.inj h
      rfl
  | cons c rest ih =>
      by_cases hZero : c = '0'
      · subst hZero
        have hSkip : withoutLeadingZeros ('0' :: rest) = withoutLeadingZeros rest := by
          simp [withoutLeadingZeros]
        rw [hSkip]
        exact ih h
      · have hKeep : withoutLeadingZeros (c :: rest) = c :: rest := by
          simp [withoutLeadingZeros, hZero]
        rw [readFrom?] at h
        cases hDigit : digit? 10 c with
        | none =>
            rw [hDigit] at h
            cases h
        | some d =>
            rw [hDigit] at h
            have hOne := Writes.toDigits (digit?_eq_some_iff.mp hDigit)
            have hPositive : 0 < d := by
              apply Nat.pos_of_ne_zero
              rintro rfl
              exact hZero (List.singleton_inj.mp hOne).symm
            have hRest : readFrom? 10 d rest = some n := by simpa using h
            rw [← toDigits_append_of_readFrom? hPositive hRest, hOne, List.singleton_append, hKeep]

end Numeral

namespace Residue

open Numeral

variable {p radix : Nat} {failure error : NumeralError} {digits : List Char} {text : String}

theorem ofDigits_eq_ok_iff {x : Residue p} :
    ofDigits radix failure digits = .ok x ↔ digits ≠ [] ∧ Denotes radix digits x.val := by
  rw [ofDigits, ← read?_eq_some_iff]
  split_ifs with hEmpty
  · simp [hEmpty]
  · cases read? radix digits with
    | none => simp
    | some n =>
        simp only [ofCanonical, hEmpty, ne_eq, not_false_eq_true, true_and, Option.some.injEq]
        split_ifs with hLess
        · simp [Residue.ext_iff]
        · simp only [false_iff]
          exact fun hValue => hLess (hValue ▸ x.isLt)

theorem ofDigits_eq_error_iff :
    (ofDigits radix failure digits : Except NumeralError (Residue p)) = .error error ↔
      (digits = [] ∧ error = .empty) ∨
      ((∃ c ∈ digits, ∀ d, ¬ Writes radix c d) ∧ error = failure) ∨
      ∃ n, (digits ≠ [] ∧ Denotes radix digits n) ∧ p ≤ n ∧ error = .notCanonical n := by
  simp only [ofDigits, ← read?_eq_some_iff, ← read?_eq_none_iff]
  split_ifs with hEmpty
  · simp [hEmpty, read?, readFrom?, eq_comm]
  · cases read? radix digits with
    | none => simp [hEmpty, eq_comm]
    | some n =>
        simp only [ofCanonical, hEmpty, ne_eq, not_false_eq_true, true_and, Option.some.injEq,
          false_and, reduceCtorEq, false_or, exists_eq_left']
        split_ifs with hLess
        · simp [hLess]
        · simp [Nat.le_of_not_lt hLess, eq_comm]

theorem ofNumeral_of_marked (h : Marked text.toList digits) :
    (ofNumeral text : Except NumeralError (Residue p)) =
      ofDigits 16 (.notHexadecimal text) digits := by
  rw [← unmarked?_eq_some_iff] at h
  simp only [ofNumeral, h, ofHexadecimal, Option.getD_some]

theorem ofNumeral_of_plain (h : ∀ digits, ¬ Marked text.toList digits) :
    (ofNumeral text : Except NumeralError (Residue p)) =
      ofDigits 10 (.notDecimal text) text.toList := by
  have hNone : unmarked? text.toList = none := by
    rw [Option.eq_none_iff_forall_ne_some]
    intro digits hMarked
    exact h digits (unmarked?_eq_some_iff.mp hMarked)
  simp only [ofNumeral, hNone, ofDecimal]

theorem ofNumeral_eq_ok_iff {x : Residue p} :
    ofNumeral text = .ok x ↔ Spells text.toList x.val := by
  by_cases hMarked : ∃ digits, Marked text.toList digits
  · obtain ⟨digits, hMarked⟩ := hMarked
    rw [ofNumeral_of_marked hMarked, ofDigits_eq_ok_iff, hMarked.spells_iff]
  · have hPlain := not_exists.mp hMarked
    rw [ofNumeral_of_plain hPlain, ofDigits_eq_ok_iff, spells_iff_of_plain hPlain]

theorem ofNumeral_eq_error_iff :
    (ofNumeral text : Except NumeralError (Residue p)) = .error error ↔ Refuted p text error := by
  by_cases hMarked : ∃ digits, Marked text.toList digits
  · obtain ⟨digits, hMarked⟩ := hMarked
    rw [ofNumeral_of_marked hMarked, ofDigits_eq_error_iff]
    simp only [← hMarked.spells_iff]
    constructor
    · rintro (⟨rfl, rfl⟩ | ⟨hOther, rfl⟩ | ⟨n, hSpells, hLarge, rfl⟩)
      · exact .empty (.inr hMarked)
      · exact .notHexadecimal hMarked hOther
      · exact .notCanonical hSpells hLarge
    · intro h
      cases h with
      | empty hEmpty =>
          rcases hEmpty with hNil | hEmpty
          · obtain ⟨mark, -, hText⟩ := hMarked
            rw [hNil] at hText
            cases hText
          · exact .inl ⟨hMarked.eq hEmpty, rfl⟩
      | notCanonical hSpells hLarge => exact .inr (.inr ⟨_, hSpells, hLarge, rfl⟩)
      | notHexadecimal hMarked' hOther => exact .inr (.inl ⟨hMarked.eq hMarked' ▸ hOther, rfl⟩)
      | notDecimal hPlain hOther => exact absurd hMarked (hPlain digits)
  · have hPlain := not_exists.mp hMarked
    rw [ofNumeral_of_plain hPlain, ofDigits_eq_error_iff]
    simp only [← spells_iff_of_plain hPlain]
    constructor
    · rintro (⟨hNil, rfl⟩ | ⟨hOther, rfl⟩ | ⟨n, hSpells, hLarge, rfl⟩)
      · exact .empty (.inl hNil)
      · exact .notDecimal hPlain hOther
      · exact .notCanonical hSpells hLarge
    · intro h
      cases h with
      | empty hEmpty => exact .inl ⟨hEmpty.resolve_right (hPlain []), rfl⟩
      | notCanonical hSpells hLarge => exact .inr (.inr ⟨_, hSpells, hLarge, rfl⟩)
      | notHexadecimal hMarked' hOther => exact absurd hMarked' (hPlain _)
      | notDecimal hPlain' hOther => exact .inr (.inl ⟨hOther, rfl⟩)

theorem ofNumeral_toHexadecimal (a : Residue p) : ofNumeral a.toHexadecimal = .ok a := by
  have hMarked : Marked a.toHexadecimal.toList (Nat.toDigits 16 a.val) :=
    ⟨'x', .inl rfl, by simp [toHexadecimal]⟩
  rw [ofNumeral_of_marked hMarked, ofDigits_eq_ok_iff, ← read?_eq_some_iff]
  exact ⟨Nat.toDigits_ne_nil, read?_toDigits (by decide) (by decide) a.val⟩

/-- The codec accepts exactly the canonical numerals. A text is read as a residue if and only if it
spells its representative, and otherwise it is refused for the reason that is true of it. What is
written in either radix is read back, and a decimal text that is read is written again without its
leading zeros. The modulus is arbitrary. -/
theorem ofNumeral_canonical (p : Nat) (text : String) :
    (∀ x : Residue p, ofNumeral text = .ok x ↔ Spells text.toList x.val) ∧
    (∀ error, (ofNumeral text : Except NumeralError (Residue p)) = .error error ↔
      Refuted p text error) ∧
    (∀ x : Residue p, ofNumeral x.toDecimal = .ok x ∧ ofNumeral x.toHexadecimal = .ok x) ∧
    ∀ x : Residue p, (∀ c ∈ text.toList, c.isDigit = true) → ofNumeral text = .ok x →
      x.toDecimal = String.ofList (withoutLeadingZeros text.toList) := by
  refine ⟨fun x => ofNumeral_eq_ok_iff, fun error => ofNumeral_eq_error_iff,
    fun x => ⟨ofNumeral_toDecimal x, ofNumeral_toHexadecimal x⟩, fun x hDigits hRead => ?_⟩
  have hPlain (digits : List Char) : ¬ Marked text.toList digits := by
    intro hMarked
    obtain ⟨c, hc, hLetter⟩ := hMarked.exists_not_isDigit
    rw [hDigits c hc] at hLetter
    cases hLetter
  rw [ofNumeral_eq_ok_iff, spells_iff_of_plain hPlain, ← read?_eq_some_iff] at hRead
  rw [toDecimal, Nat.repr_eq_ofList_toDigits, toDigits_eq_withoutLeadingZeros hRead.2]

/-- A decimal text with zeros in front of it. -/
theorem ofNumeral_canonical_zeros :
    ∃ x : Residue pallasPrime, ofNumeral "00720" = .ok x ∧ x.toDecimal = "720" := by
  obtain ⟨hSpelled, -, -, hWritten⟩ := ofNumeral_canonical pallasPrime "00720"
  have hLess : 720 < pallasPrime := by decide
  have hRead : ofNumeral "00720" = .ok (⟨720, hLess⟩ : Residue pallasPrime) := by
    apply (hSpelled _).mpr
    apply Spells.decimal (by decide)
    exact read?_eq_some_iff.mp (by rfl)
  refine ⟨⟨720, hLess⟩, hRead, ?_⟩
  rw [hWritten _ (List.all_eq_true.mp (by decide)) hRead]
  decide

end Residue

end ArithCircuit
