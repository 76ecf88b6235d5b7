import ArithCircuit.Json.Reader
import ArithCircuit.Proofs.Numeral

/-! Documents in compact form are read back. A text is escaped so that the reader finds its end and
its meaning again, a number ends where no further part of one follows, and the length of the text
bounds the nesting. -/
namespace ArithCircuit.Json

/-- How a character is spelled inside a string: by a short escape, by its number, or as it is. -/
theorem escapeChar_cases (c : Char) :
    (∃ e, escapeChar c = ['\\', e] ∧ shortEscape? e = some c) ∨
    (∃ high low, escapeChar c = ['\\', 'u', '0', '0', high, low] ∧ isHexDigit high = true ∧
      isHexDigit low = true ∧ hexQuad? '0' '0' high low = some c.toNat ∧ c.toNat < 0x20) ∨
    (escapeChar c = [c] ∧ c ≠ '"' ∧ c ≠ '\\' ∧ 0x20 ≤ c.toNat) := by
  unfold escapeChar
  split_ifs with h₁ h₂ h₃ h₄ h₅ h₆ h₇ h₈
  · exact .inl ⟨'"', rfl, by rw [h₁]; rfl⟩
  · exact .inl ⟨'\\', rfl, by rw [h₂]; rfl⟩
  · exact .inl ⟨'b', rfl, by rw [h₃]; rfl⟩
  · exact .inl ⟨'f', rfl, by rw [h₄]; rfl⟩
  · exact .inl ⟨'n', rfl, by rw [h₅]; rfl⟩
  · exact .inl ⟨'r', rfl, by rw [h₆]; rfl⟩
  · exact .inl ⟨'t', rfl, by rw [h₇]; rfl⟩
  · have hDigits : ∀ n < 0x20, isHexDigit (Nat.digitChar (n / 16)) = true ∧
        isHexDigit (Nat.digitChar (n % 16)) = true ∧
        hexQuad? '0' '0' (Nat.digitChar (n / 16)) (Nat.digitChar (n % 16)) = some n := by decide
    obtain ⟨hHigh, hLow, hNumber⟩ := hDigits c.toNat h₈
    exact .inr (.inl ⟨_, _, rfl, hHigh, hLow, hNumber, h₈⟩)
  · exact .inr (.inr ⟨rfl, h₁, h₂, by omega⟩)

theorem ne_u_of_shortEscape? {e c : Char} (h : shortEscape? e = some c) : e ≠ 'u' := by
  rintro rfl
  cases h

/-- The reader passes over a spelled character. -/
theorem readBody_escapeChar (c : Char) (before tail : List Char) :
    readBody before (escapeChar c ++ tail) = readBody ((escapeChar c).reverse ++ before) tail := by
  rcases escapeChar_cases c with ⟨e, hSpelled, hEscape⟩ |
    ⟨high, low, hSpelled, hHigh, hLow, -, -⟩ | ⟨hSpelled, hQuote, hSlash, hPrint⟩
  · rw [hSpelled]
    show readBody before ('\\' :: e :: tail) = _
    rw [readBody]
    · simp [hEscape]
    · intro _ _ _ _ _ hSame
      exact absurd hSame (ne_u_of_shortEscape? hEscape)
  · rw [hSpelled]
    have hZero : isHexDigit '0' = true := by decide
    show readBody before ('\\' :: 'u' :: '0' :: '0' :: high :: low :: tail) = _
    rw [readBody]
    simp [hHigh, hLow, hZero]
  · rw [hSpelled]
    show readBody before (c :: tail) = readBody (c :: before) tail
    rw [readBody]
    · rw [if_neg (by omega)]
    · exact hQuote
    · intro _ _ _ _ _ hSame
      exact absurd hSame hSlash
    · intro _ _ hSame
      exact absurd hSame hSlash

/-- A string ends at the quote after its text. -/
theorem readBody_escape (text before rest : List Char) :
    readBody before (escape text ++ '"' :: rest) = some (before.reverse ++ escape text, rest) := by
  induction text generalizing before with
  | nil => simp [escape, readBody]
  | cons c text ih =>
      have hCons : escape (c :: text) = escapeChar c ++ escape text := List.flatMap_cons
      rw [hCons, List.append_assoc, readBody_escapeChar, ih]
      simp

/-- A spelled character denotes itself. -/
theorem unescapeAfter?_escapeChar (c : Char) (before tail : List Char) :
    unescapeAfter? before (escapeChar c ++ tail) = unescapeAfter? (c :: before) tail := by
  rcases escapeChar_cases c with ⟨e, hSpelled, hEscape⟩ |
    ⟨high, low, hSpelled, -, -, hNumber, hSmall⟩ | ⟨hSpelled, -, hSlash, -⟩
  · rw [hSpelled]
    show unescapeAfter? before ('\\' :: e :: tail) = _
    rw [unescapeAfter?]
    · rw [hEscape]
    · intro _ _ _ _ _ hSame
      exact absurd hSame (ne_u_of_shortEscape? hEscape)
  · rw [hSpelled]
    show unescapeAfter? before ('\\' :: 'u' :: '0' :: '0' :: high :: low :: tail) = _
    rw [unescapeAfter?, hNumber]
    simp only
    rw [if_neg (by omega), if_neg (by omega), Char.ofNat_toNat]
  · rw [hSpelled]
    show unescapeAfter? before (c :: tail) = _
    rw [unescapeAfter?]
    · intro _ _ _ _ _ hSame
      exact absurd hSame hSlash
    · intro _ _ hSame
      exact absurd hSame hSlash

/-- A spelled text denotes itself. -/
theorem unescape?_escape (text : List Char) : unescape? (escape text) = some text := by
  have hAfter (before : List Char) :
      unescapeAfter? before (escape text) = some (before.reverse ++ text) := by
    induction text generalizing before with
    | nil => simp [escape, unescapeAfter?]
    | cons c text ih =>
        have hCons : escape (c :: text) = escapeChar c ++ escape text := List.flatMap_cons
        rw [hCons, unescapeAfter?_escapeChar, ih]
        simp
  exact hAfter []

@[simp] theorem text?_ofText (text : String) : (ofText text).text? = some text := by
  rw [ofText, text?, unescape?_escape, Option.map_some, String.ofList_toList]

@[simp] theorem nat?_ofNat (n : Nat) : (ofNat n).nat? = some n :=
  Numeral.read?_toDigits (by decide) (by decide) n

/-- What follows a number does not go on with it. -/
def EndsNumber (rest : List Char) : Prop :=
  ∀ c ∈ rest.head?, isDigit c = false ∧ c ≠ '.' ∧ c ≠ 'e' ∧ c ≠ 'E'

theorem endsNumber_nil : EndsNumber [] := by
  intro c hc
  cases hc

theorem endsNumber_cons {c : Char} (h : isDigit c = false ∧ c ≠ '.' ∧ c ≠ 'e' ∧ c ≠ 'E')
    (tail : List Char) : EndsNumber (c :: tail) := by
  intro d hd
  cases hd
  exact h

theorem isDigit_of_mem_toDigits {n : Nat} {c : Char} (h : c ∈ Nat.toDigits 10 n) :
    isDigit c = true := by
  have hDigit := Nat.isDigit_of_mem_toDigits (by decide) (by decide) h
  simpa [isDigit, Char.isDigit, Char.le_def] using hDigit

/-- Only zero is written with a leading zero. -/
theorem toDigits_eq_cons (n : Nat) :
    ∃ c tail, Nat.toDigits 10 n = c :: tail ∧ (c = '0' → n = 0 ∧ tail = []) := by
  induction n using Nat.strong_induction_on with
  | _ n ih =>
      by_cases hSmall : n < 10
      · refine ⟨n.digitChar, [], Nat.toDigits_of_lt_base hSmall, fun hZero => ?_⟩
        exact ⟨Nat.digitChar_eq_zero.mp hZero, rfl⟩
      · obtain ⟨c, tail, hHigh, hZero⟩ := ih (n / 10) (by omega)
        refine ⟨c, tail ++ [(n % 10).digitChar], ?_, fun hc => ?_⟩
        · rw [Nat.toDigits_of_base_le (by decide) (by omega), hHigh, List.cons_append]
        · have hQuotient := (hZero hc).1
          omega

theorem readDigits_append {digits rest : List Char} (hNonempty : digits ≠ [])
    (hDigits : ∀ c ∈ digits, isDigit c = true) (hRest : EndsNumber rest) :
    readDigits (digits ++ rest) = some (digits, rest) := by
  have hStop : rest.takeWhile isDigit = [] ∧ rest.dropWhile isDigit = rest := by
    cases rest with
    | nil => exact ⟨rfl, rfl⟩
    | cons c rest =>
        have hc : ¬ isDigit c = true := by simp [(hRest c rfl).1]
        exact ⟨List.takeWhile_cons_of_neg hc, List.dropWhile_cons_of_neg hc⟩
  rw [readDigits, List.takeWhile_append_of_pos hDigits, List.dropWhile_append_of_pos hDigits,
    hStop.1, hStop.2, List.append_nil]
  cases digits with
  | nil => exact absurd rfl hNonempty
  | cons c tail => rfl

/-- The digits of a number are read up to what follows them. -/
theorem readNumber_toDigits (n : Nat) {rest : List Char} (hRest : EndsNumber rest) :
    readNumber (Nat.toDigits 10 n ++ rest) = some (Nat.toDigits 10 n, rest) := by
  have hDigits : ∀ c ∈ Nat.toDigits 10 n, isDigit c = true := fun _ => isDigit_of_mem_toDigits
  have hRead := readDigits_append Nat.toDigits_ne_nil hDigits hRest
  obtain ⟨c, tail, hCons, hZero⟩ := toDigits_eq_cons n
  have hWhole : readWhole (Nat.toDigits 10 n ++ rest) = some (Nat.toDigits 10 n, rest) := by
    by_cases hc : c = '0'
    · obtain ⟨-, rfl⟩ := hZero hc
      rw [hCons, hc]
      rfl
    · rw [← hRead, hCons, List.cons_append, readWhole]
      exact fun _ hSame => hc (List.cons.inj hSame).1
  have hFraction : readFraction rest = some ([], rest) := by
    cases rest with
    | nil => rfl
    | cons d rest =>
        rw [readFraction]
        exact fun _ hSame => (hRest d rfl).2.1 (List.cons.inj hSame).1
  have hExponent : readExponent rest = some ([], rest) := by
    cases rest with
    | nil => rfl
    | cons d rest =>
        unfold readExponent
        exact if_neg (not_or.mpr (hRest d rfl).2.2)
  have hMagnitude : readMagnitude (Nat.toDigits 10 n ++ rest) = some (Nat.toDigits 10 n, rest) := by
    simp only [readMagnitude, hWhole, hFraction, hExponent, List.append_nil]
  have hc : c ≠ '-' := by
    rintro rfl
    exact absurd (hDigits '-' (by rw [hCons]; exact List.mem_cons_self)) (by decide)
  rw [← hMagnitude, hCons, List.cons_append, readNumber]
  exact fun _ hSame => hc (List.cons.inj hSame).1

/-- A document as the library writes it: its numbers are natural and its strings are spelled
texts. -/
inductive Written : Json → Prop
  | null : Written .null
  | bool (value : Bool) : Written (.bool value)
  | number (n : Nat) : Written (ofNat n)
  | string (text : List Char) : Written (.string (escape text))
  | array (items : List Json) (h : ∀ item ∈ items, Written item) : Written (.array items)
  | object (members : List (List Char × Json)) (hKeys : ∀ m ∈ members, ∃ key, m.1 = escape key)
    (h : ∀ m ∈ members, Written m.2) : Written (.object members)

theorem written_ofText (text : String) : Written (ofText text) := .string text.toList

theorem written_record {members : List (String × Json)} (h : ∀ m ∈ members, Written m.2) :
    Written (record members) := by
  apply Written.object
  · intro m hm
    obtain ⟨member, -, rfl⟩ := List.mem_map.mp hm
    exact ⟨member.1.toList, rfl⟩
  · intro m hm
    obtain ⟨member, hMember, rfl⟩ := List.mem_map.mp hm
    exact h member hMember

/-- A value starts with neither a blank nor a closing bracket. -/
theorem Written.compact_eq_cons {json : Json} (h : json.Written) :
    ∃ c tail, json.compact = c :: tail ∧ isSpace c = false ∧ c ≠ ']' := by
  cases h with
  | null => exact ⟨_, _, rfl, by decide⟩
  | bool value => cases value <;> exact ⟨_, _, rfl, by decide⟩
  | number n =>
      obtain ⟨c, tail, hCons, -⟩ := toDigits_eq_cons n
      have hDigit : isDigit c = true :=
        isDigit_of_mem_toDigits (n := n) (by rw [hCons]; exact List.mem_cons_self)
      refine ⟨c, tail, by rw [ofNat, compact, hCons], ?_, ?_⟩
      · by_contra hSpace
        simp only [isSpace, Bool.not_eq_false, Bool.or_eq_true, beq_iff_eq] at hSpace
        rcases hSpace with ((rfl | rfl) | rfl) | rfl <;> exact absurd hDigit (by decide)
      · rintro rfl
        exact absurd hDigit (by decide)
  | string text => exact ⟨_, _, by rw [compact]; rfl, by decide⟩
  | array items _ => exact ⟨_, _, by rw [compact]; rfl, by decide⟩
  | object members _ _ => exact ⟨_, _, by rw [compact]; rfl, by decide⟩

/-- Nor do the items of an array. -/
theorem compactItems_eq_cons {item : Json} (h : item.Written) (items : List Json) :
    ∃ c tail, compactItems (item :: items) = c :: tail ∧ isSpace c = false ∧ c ≠ ']' := by
  obtain ⟨c, tail, hCons, hStart⟩ := h.compact_eq_cons
  cases items with
  | nil => exact ⟨c, tail, by rw [compactItems, hCons], hStart⟩
  | cons next items => exact ⟨c, _, by rw [compactItems, hCons, List.cons_append], hStart⟩

/-- The members of an object start with the quote of a name. -/
theorem compactMembers_eq_cons (member : List Char × Json) (members : List (List Char × Json)) :
    ∃ tail, compactMembers (member :: members) = '"' :: tail := by
  cases members with
  | nil =>
      rw [compactMembers, List.cons_append]
      exact ⟨_, rfl⟩
  | cons next members =>
      rw [compactMembers, List.cons_append, List.cons_append]
      exact ⟨_, rfl⟩

theorem skipSpace_cons {c : Char} (h : isSpace c = false) (tail : List Char) :
    skipSpace (c :: tail) = c :: tail :=
  List.dropWhile_cons_of_neg (by simp [h])

/-- A value that starts with a digit is a number. -/
theorem readValue_digit {c : Char} (h : isDigit c = true) (bound : Nat) (tail : List Char) :
    readValue (bound + 1) (c :: tail) =
      (readNumber (c :: tail)).map fun read => (.number read.1, read.2) := by
  have hNe (d : Char) (hd : isDigit d = false) : c ≠ d := by
    rintro rfl
    rw [h] at hd
    cases hd
  have hSpace : isSpace c = false := by
    simp [isSpace, hNe ' ' rfl, hNe '\n' rfl, hNe '\t' rfl, hNe '\r' rfl]
  rw [readValue, skipSpace_cons hSpace]
  simp [hNe 'n' rfl, hNe 't' rfl, hNe 'f' rfl, hNe '"' rfl, hNe '[' rfl, hNe '\x7b' rfl]

/-- Within the bound, compact values are read back. -/
def ReadsValues (bound : Nat) : Prop :=
  ∀ json rest, Written json → json.compact.length ≤ bound → EndsNumber rest →
    readValue bound (json.compact ++ rest) = some (json, rest)

/-- Within the bound, the items of an array are read back up to its end. -/
def ReadsItems (bound : Nat) : Prop :=
  ∀ item items rest, Written (.array (item :: items)) →
    (compactItems (item :: items)).length < bound →
    readItems bound (compactItems (item :: items) ++ ']' :: rest) = some (item :: items, rest)

/-- Within the bound, the members of an object are read back up to its end. -/
def ReadsMembers (bound : Nat) : Prop :=
  ∀ member members rest, Written (.object (member :: members)) →
    (compactMembers (member :: members)).length < bound →
    readMembers bound (compactMembers (member :: members) ++ '\x7d' :: rest) =
      some (member :: members, rest)

theorem readsItems_succ {bound : Nat} (hValues : ReadsValues bound) (hItems : ReadsItems bound) :
    ReadsItems (bound + 1) := by
  intro item items rest hWritten hLength
  cases hWritten with
  | array _ hAll =>
      have hItem := hAll item List.mem_cons_self
      cases items with
      | nil =>
          rw [compactItems] at hLength ⊢
          rw [readItems, hValues item _ hItem (by omega) (endsNumber_cons (by decide) _)]
          simp only [skipSpace_cons (by decide : isSpace ']' = false)]
      | cons next items =>
          rw [compactItems, List.length_append, List.length_cons] at hLength
          have hRest : Written (.array (next :: items)) :=
            .array _ fun json hJson => hAll json (List.mem_cons_of_mem _ hJson)
          rw [compactItems, List.append_assoc, List.cons_append, readItems,
            hValues item _ hItem (by omega) (endsNumber_cons (by decide) _)]
          simp only [skipSpace_cons (by decide : isSpace ',' = false)]
          rw [hItems next items rest hRest (by omega)]
          rfl

theorem readsMembers_succ {bound : Nat} (hValues : ReadsValues bound)
    (hMembers : ReadsMembers bound) : ReadsMembers (bound + 1) := by
  rintro ⟨key, item⟩ members rest hWritten hLength
  cases hWritten with
  | object _ hKeys hAll =>
      obtain ⟨key, rfl⟩ := hKeys _ List.mem_cons_self
      have hItem : Written item := hAll _ List.mem_cons_self
      have hRead (tail : List Char) := readBody_escape key [] (':' :: tail)
      cases members with
      | nil =>
          rw [compactMembers] at hLength ⊢
          simp only [List.length_cons, List.length_append] at hLength
          simp only [List.cons_append, List.append_assoc]
          rw [readMembers, skipSpace_cons (by decide)]
          simp only [hRead, skipSpace_cons (by decide : isSpace ':' = false)]
          rw [hValues item _ hItem (by omega) (endsNumber_cons (by decide) _)]
          simp only [skipSpace_cons (by decide : isSpace '\x7d' = false)]
          rfl
      | cons next members =>
          rw [compactMembers] at hLength ⊢
          simp only [List.length_cons, List.length_append] at hLength
          simp only [List.cons_append, List.append_assoc]
          have hRest : Written (.object (next :: members)) :=
            .object _ (fun m hm => hKeys m (List.mem_cons_of_mem _ hm))
              fun m hm => hAll m (List.mem_cons_of_mem _ hm)
          rw [readMembers, skipSpace_cons (by decide)]
          simp only [hRead, skipSpace_cons (by decide : isSpace ':' = false)]
          rw [hValues item _ hItem (by omega) (endsNumber_cons (by decide) _)]
          simp only [skipSpace_cons (by decide : isSpace ',' = false)]
          rw [hMembers next members rest hRest (by omega)]
          rfl

theorem readsValues_succ {bound : Nat} (hItems : ReadsItems bound)
    (hMembers : ReadsMembers bound) : ReadsValues (bound + 1) := by
  intro json rest hWritten hLength hRest
  cases hWritten with
  | null => rfl
  | bool value => cases value <;> rfl
  | number n =>
      obtain ⟨c, tail, hCons, -⟩ := toDigits_eq_cons n
      have hDigit : isDigit c = true :=
        isDigit_of_mem_toDigits (n := n) (by rw [hCons]; exact List.mem_cons_self)
      have hRead := readNumber_toDigits n hRest
      rw [hCons, List.cons_append] at hRead
      rw [ofNat, compact, hCons, List.cons_append, readValue_digit hDigit, hRead]
      rfl
  | string text =>
      simp only [compact, List.cons_append, List.append_assoc, List.nil_append]
      rw [readValue, skipSpace_cons (by decide)]
      simp only [readBody_escape]
      rfl
  | array items hAll =>
      cases items with
      | nil => rfl
      | cons item items =>
          obtain ⟨c, tail, hCons, hSpace, hBracket⟩ :=
            compactItems_eq_cons (hAll item List.mem_cons_self) items
          simp only [compact, List.length_cons, List.length_append] at hLength
          have hRead := hItems item items rest (.array _ hAll) (by omega)
          simp only [compact, List.cons_append, List.append_assoc, List.nil_append]
          rw [readValue, skipSpace_cons (by decide)]
          rw [hCons, List.cons_append] at hRead ⊢
          simp [skipSpace_cons hSpace, hBracket, hRead]
  | object members hKeys hAll =>
      cases members with
      | nil => rfl
      | cons member members =>
          obtain ⟨tail, hCons⟩ := compactMembers_eq_cons member members
          simp only [compact, List.length_cons, List.length_append] at hLength
          have hRead := hMembers member members rest (.object _ hKeys hAll) (by omega)
          simp only [compact, List.cons_append, List.append_assoc, List.nil_append]
          rw [readValue, skipSpace_cons (by decide)]
          rw [hCons, List.cons_append] at hRead ⊢
          simp [skipSpace_cons (by decide : isSpace '"' = false), hRead]

/-- Compact values, items and members are read back. A bound leaves one less for the parts of a
value, and these are shorter. -/
theorem reads_compact (bound : Nat) :
    ReadsValues bound ∧ ReadsItems bound ∧ ReadsMembers bound := by
  induction bound with
  | zero =>
      refine ⟨fun json rest hWritten hLength => ?_, fun _ _ _ _ h => ?_, fun _ _ _ _ h => ?_⟩
      · obtain ⟨c, tail, hCons, -⟩ := hWritten.compact_eq_cons
        rw [hCons] at hLength
        cases hLength
      · cases h
      · cases h
  | succ bound ih =>
      obtain ⟨hValues, hItems, hMembers⟩ := ih
      exact ⟨readsValues_succ hItems hMembers, readsItems_succ hValues hItems,
        readsMembers_succ hValues hMembers⟩

/-- A document in compact form is read back. -/
theorem read?_compact {json : Json} (h : json.Written) : read? json.compact = some json := by
  have hRead := (reads_compact (2 * json.compact.length + 2)).1 json [] h (by omega) endsNumber_nil
  rw [List.append_nil] at hRead
  rw [read?, hRead]
  rfl

end ArithCircuit.Json
