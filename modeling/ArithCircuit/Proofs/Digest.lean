import ArithCircuit.Circuit.Basic
import ArithCircuit.Proofs.Tokens
import ArithCircuit.Residue.Pasta

/-! What a digest covers. The hashed bytes are a sequence of items, and each item can be split off
from whatever follows it. Hence the bytes determine the gates and the number of public inputs, and
two circuits share a digest only through a collision of the hash. -/
namespace ArithCircuit

namespace Bytes

@[simp] theorem bigEndian_length (count n : Nat) : (bigEndian count n).length = count := by
  induction count generalizing n with
  | zero => rfl
  | succ count ih => simp [bigEndian, ih]

theorem bigEndian_injective {count n m : Nat} (hn : n < 256 ^ count) (hm : m < 256 ^ count)
    (h : bigEndian count n = bigEndian count m) : n = m := by
  induction count generalizing n m with
  | zero =>
      rw [pow_zero] at hn hm
      omega
  | succ count ih =>
      rw [pow_succ] at hn hm
      obtain ⟨hHigh, hLow⟩ := List.append_inj h (by simp)
      have hQuotient : n / 256 = m / 256 := by
        apply ih _ _ hHigh
        · omega
        · omega
      have hDigit : n % 256 = m % 256 := by
        simpa using congrArg UInt8.toNat (List.cons.inj hLow).1
      omega

/-- Items of the given kind can be split off from what follows them: where two texts agree, so do
the items that they start with and the rests. The rests may be restricted. -/
def Delimits {α : Type} (encode : α → List UInt8) (valid : α → Prop)
    (next : List UInt8 → Prop) : Prop :=
  ∀ ⦃a b : α⦄, valid a → valid b → ∀ ⦃r s : List UInt8⦄, next r → next s →
    encode a ++ r = encode b ++ s → a = b ∧ r = s

/-- A sequence of items of known length. -/
theorem Delimits.flatMap {α : Type} {encode : α → List UInt8} {valid : α → Prop}
    {next : List UInt8 → Prop} (h : Delimits encode valid next)
    (hNext : ∀ a r, next (encode a ++ r)) {items items' : List α}
    (hLength : items.length = items'.length) (hValid : ∀ a ∈ items, valid a)
    (hValid' : ∀ a ∈ items', valid a) {r s : List UInt8} (hr : next r) (hs : next s)
    (hSame : items.flatMap encode ++ r = items'.flatMap encode ++ s) :
    items = items' ∧ r = s := by
  have hFollow (rest : List α) (t : List UInt8) (ht : next t) :
      next (rest.flatMap encode ++ t) := by
    cases rest with
    | nil => exact ht
    | cons a rest =>
        rw [List.flatMap_cons, List.append_assoc]
        exact hNext a _
  induction items generalizing items' with
  | nil =>
      obtain rfl := List.length_eq_zero_iff.mp hLength.symm
      exact ⟨rfl, hSame⟩
  | cons a rest ih =>
      cases items' with
      | nil => cases hLength
      | cons b rest' =>
          simp only [List.flatMap_cons, List.append_assoc] at hSame
          obtain ⟨rfl, hRest⟩ := h (hValid a List.mem_cons_self) (hValid' b List.mem_cons_self)
            (hFollow rest r hr) (hFollow rest' s hs) hSame
          obtain ⟨rfl, hEnd⟩ := ih (Nat.succ.inj hLength)
            (fun a ha => hValid a (List.mem_cons_of_mem _ ha))
            (fun a ha => hValid' a (List.mem_cons_of_mem _ ha)) hRest
          exact ⟨rfl, hEnd⟩

end Bytes

namespace MessagePack

open Bytes (bigEndian Delimits)

/-- The number of bytes in which a number is written after a tag. -/
def payload (tag : UInt8) : Nat :=
  if tag = 0xcc ∨ tag = 0xd9 then 1
  else if tag = 0xcd ∨ tag = 0xda ∨ tag = 0xdc then 2
  else if tag = 0xcf then 8
  else 4

/-- The bytes state a number: below `limit` in a single byte from `base` on, and otherwise after a
tag, which is none of these bytes. A number of 32 bits fits behind its tag. -/
inductive States (base limit n : Nat) : List UInt8 → Prop
  | short (h : n < limit) : States base limit n [(base + n).toUInt8]
  | tagged (tag : UInt8) (h : base + limit ≤ tag.toNat)
    (hFits : n < 2 ^ 32 → n < 256 ^ payload tag) :
    States base limit n (tag :: bigEndian (payload tag) n)

theorem nat_states (n : Nat) : States 0 0x80 n (nat n) := by
  unfold nat
  split_ifs with h₁ h₂ h₃ h₄
  · have hByte := @States.short 0 0x80 n h₁
    rwa [Nat.zero_add] at hByte
  · exact .tagged 0xcc (by decide) fun _ => h₂
  · exact .tagged 0xcd (by decide) fun _ => h₃
  · exact .tagged 0xce (by decide) fun _ => h₄
  · exact .tagged 0xcf (by decide) fun h => Nat.lt_trans h (by decide)

theorem textHeader_states (n : Nat) : States 0xa0 0x20 n (textHeader n) := by
  unfold textHeader
  split_ifs with h₁ h₂ h₃
  · exact .short h₁
  · exact .tagged 0xd9 (by decide) fun _ => h₂
  · exact .tagged 0xda (by decide) fun _ => h₃
  · exact .tagged 0xdb (by decide) fun h => h

theorem arrayHeader_states (n : Nat) : States 0x90 0x10 n (arrayHeader n) := by
  unfold arrayHeader
  split_ifs with h₁ h₂
  · exact .short h₁
  · exact .tagged 0xdc (by decide) fun _ => h₂
  · exact .tagged 0xdd (by decide) fun h => h

/-- A number can be split off, up to 32 bits of it; its header can be in any case. -/
theorem States.split {base limit n m : Nat} (hLimit : base + limit ≤ 256) {xs ys : List UInt8}
    (h : States base limit n xs) (h' : States base limit m ys) {r s : List UInt8}
    (hSame : xs ++ r = ys ++ s) : r = s ∧ (n < 2 ^ 32 → m < 2 ^ 32 → n = m) := by
  cases h with
  | short hn =>
      cases h' with
      | short hm =>
          obtain ⟨hByte, rfl⟩ := List.cons.inj hSame
          have hNat := congrArg UInt8.toNat hByte
          simp only [Nat.toUInt8, UInt8.toNat_ofNat'] at hNat
          refine ⟨rfl, fun _ _ => ?_⟩
          omega
      | tagged tag hTag hFits =>
          have hNat := congrArg UInt8.toNat (List.cons.inj hSame).1
          simp only [Nat.toUInt8, UInt8.toNat_ofNat'] at hNat
          omega
  | tagged tag hTag hFits =>
      cases h' with
      | short hm =>
          have hNat := congrArg UInt8.toNat (List.cons.inj hSame).1
          simp only [Nat.toUInt8, UInt8.toNat_ofNat'] at hNat
          omega
      | tagged tag' hTag' hFits' =>
          obtain ⟨rfl, hRest⟩ := List.cons.inj hSame
          obtain ⟨hDigits, rfl⟩ := List.append_inj hRest (by simp)
          exact ⟨rfl, fun hn hm => Bytes.bigEndian_injective (hFits hn) (hFits' hm) hDigits⟩

theorem nat_delimits : Delimits nat (· < 2 ^ 32) fun _ => True := by
  intro n m hn hm r s _ _ hSame
  obtain ⟨hRest, hNumber⟩ := (nat_states n).split (by decide) (nat_states m) hSame
  exact ⟨hNumber hn hm, hRest⟩

theorem utf8_injective {t u : String} (h : utf8 t = utf8 u) : t = u := by
  apply String.toByteArray_inj.mp
  apply ByteArray.ext
  exact Array.toList_inj.mp h

/-- A text is split off by the length in its header. -/
theorem text_delimits : Delimits text (fun t => (utf8 t).length < 2 ^ 32) fun _ => True := by
  intro t u ht hu r s _ _ hSame
  simp only [text, List.append_assoc] at hSame
  obtain ⟨hRest, hLength⟩ := (textHeader_states _).split (by decide) (textHeader_states _) hSame
  obtain ⟨hBytes, rfl⟩ := List.append_inj hRest (hLength ht hu)
  exact ⟨utf8_injective hBytes, rfl⟩

/-- An array is split off by the number of items in its header, and then item by item. -/
theorem array_delimits {α : Type} {item : α → List UInt8} {valid : α → Prop}
    {next : List UInt8 → Prop} (h : Delimits item valid next)
    (hNext : ∀ a r, next (item a ++ r)) :
    Delimits (array item) (fun items => items.length < 2 ^ 32 ∧ ∀ a ∈ items, valid a) next := by
  rintro items items' ⟨hLength, hValid⟩ ⟨hLength', hValid'⟩ r s hr hs hSame
  simp only [array, List.append_assoc] at hSame
  obtain ⟨hRest, hCount⟩ := (arrayHeader_states _).split (by decide) (arrayHeader_states _) hSame
  exact h.flatMap hNext (hCount hLength hLength') hValid hValid' hr hs hRest

/-- The byte of a decimal digit. -/
def isDigit (byte : UInt8) : Bool := 0x30 ≤ byte && byte ≤ 0x39

/-- What follows a run of digits does not go on with it. -/
def EndsDigits (bytes : List UInt8) : Prop := bytes.takeWhile isDigit = []

theorem textHeader_endsDigits (n : Nat) (r : List UInt8) : EndsDigits (textHeader n ++ r) := by
  have hFirst (byte : UInt8) (rest : List UInt8) (h : 0xa0 ≤ byte.toNat) :
      EndsDigits (byte :: rest ++ r) := by
    apply List.takeWhile_cons_of_neg
    simp only [isDigit, Bool.and_eq_true, decide_eq_true_eq, UInt8.le_iff_toNat_le, not_and]
    intro _
    show ¬ byte.toNat ≤ 0x39
    omega
  have hStates := textHeader_states n
  generalize textHeader n = bytes at hStates ⊢
  cases hStates with
  | short h =>
      apply hFirst
      simp only [Nat.toUInt8, UInt8.toNat_ofNat']
      omega
  | tagged tag h _ =>
      apply hFirst
      omega

end MessagePack

namespace Residue

open MessagePack

variable {p : Nat}

/-- The bytes of a decimal numeral are digits. -/
theorem isDigit_of_mem_toDecimal (a : Residue p) :
    ∀ byte ∈ utf8 a.toDecimal, isDigit byte = true := by
  intro byte hByte
  rw [utf8, toDecimal, Nat.repr_eq_ofList_toDigits, String.toUTF8_eq_toByteArray,
    String.toByteArray_ofList, List.utf8Encode, List.toList_data_toByteArray] at hByte
  obtain ⟨c, hc, hByte⟩ := List.mem_flatMap.mp hByte
  have hDigit := Nat.isDigit_of_mem_toDigits (by decide) (by decide) hc
  obtain ⟨hLow, hHigh⟩ : 0x30 ≤ c.val.toNat ∧ c.val.toNat ≤ 0x39 := by
    simpa [Char.isDigit, UInt32.le_iff_toNat_le] using hDigit
  rw [String.utf8EncodeChar, if_pos (by omega), List.mem_singleton] at hByte
  rw [hByte]
  simp only [isDigit, Bool.and_eq_true, decide_eq_true_eq, UInt8.le_iff_toNat_le,
    UInt8.toNat_ofNat']
  show 0x30 ≤ c.val.toNat % 256 ∧ c.val.toNat % 256 ≤ 0x39
  omega

/-- A decimal numeral is split off by its digits, however long it is. -/
theorem toDecimal_delimits :
    Bytes.Delimits (fun a : Residue p => text a.toDecimal) (fun _ => True) EndsDigits := by
  intro a b _ _ r s hr hs hSame
  simp only [text, List.append_assoc] at hSame
  obtain ⟨hRest, -⟩ := (textHeader_states _).split (by decide) (textHeader_states _) hSame
  obtain ⟨hDigits, hEnd⟩ := Text.run_append_inj a.isDigit_of_mem_toDecimal
    b.isDigit_of_mem_toDecimal hr hs hRest
  exact ⟨toDecimal_injective (utf8_injective hDigits), hEnd⟩

end Residue

namespace Gate

open MessagePack

variable {p : Nat}

theorem name_injective {kind kind' : GateKind} (h : kind.name = kind'.name) : kind = kind' := by
  apply Option.some.inj
  rw [← GateKind.ofName?_name kind, h, GateKind.ofName?_name]

theorem wires_delimits :
    Bytes.Delimits (fun wires : Vector UInt32 rowWidth =>
      array (fun wire => nat wire.toNat) wires.toList) (fun _ => True) fun _ => True := by
  have hWire : Bytes.Delimits (fun wire : UInt32 => nat wire.toNat) (fun _ => True)
      fun _ => True := by
    intro w w' _ _ r s hr hs hSame
    obtain ⟨hNumber, hRest⟩ := nat_delimits w.toNat_lt w'.toNat_lt hr hs hSame
    exact ⟨UInt32.toNat_inj.mp hNumber, hRest⟩
  intro wires wires' _ _ r s hr hs hSame
  have hValid (wires : Vector UInt32 rowWidth) :
      wires.toList.length < 2 ^ 32 ∧ ∀ wire ∈ wires.toList, True := by
    rw [Vector.length_toList]
    exact ⟨by decide, fun _ _ => trivial⟩
  obtain ⟨hWires, hRest⟩ := array_delimits hWire (fun _ _ => trivial) (hValid wires)
    (hValid wires') hr hs hSame
  exact ⟨Vector.toList_inj.mp hWires, hRest⟩

/-- A gate is split off field by field. -/
theorem packed_delimits :
    Bytes.Delimits (packed (p := p)) (fun gate => gate.coeffs.length < 2 ^ 32) EndsDigits := by
  rintro ⟨kind, wires, coeffs⟩ ⟨kind', wires', coeffs'⟩ hLength hLength' r s hr hs hSame
  simp only [packed, List.append_assoc] at hSame
  have hName (kind : GateKind) : (utf8 kind.name).length < 2 ^ 32 := by cases kind <;> decide
  obtain ⟨hKind, hFields⟩ := text_delimits (hName kind) (hName kind') trivial trivial
    (List.append_cancel_left hSame)
  obtain ⟨rfl, hLast⟩ := wires_delimits trivial trivial trivial trivial hFields
  have hCoeffs := array_delimits (Residue.toDecimal_delimits (p := p)) fun a r => by
    rw [text, List.append_assoc]
    exact textHeader_endsDigits _ _
  obtain ⟨rfl, hRest⟩ := hCoeffs ⟨hLength, fun _ _ => trivial⟩ ⟨hLength', fun _ _ => trivial⟩ hr hs
    hLast
  exact ⟨by rw [name_injective hKind], hRest⟩

end Gate

/-- Two different inputs with the same hash. -/
def Sha256.Collision (xs ys : List UInt8) : Prop := xs ≠ ys ∧ digest xs = digest ys

namespace Circuit

open MessagePack

variable {p : Nat} {gates gates' : List (Gate p)} {publicCount publicCount' : UInt32}

/-- The lengths that are written in front of gates and coefficients fit in 32 bits. -/
def Packable (gates : List (Gate p)) : Prop :=
  gates.length < 2 ^ 32 ∧ ∀ gate ∈ gates, gate.coeffs.length < 2 ^ 32

theorem digestInput_injective (h : Packable gates) (h' : Packable gates')
    (hSame : digestInput gates publicCount = digestInput gates' publicCount') :
    gates = gates' ∧ publicCount = publicCount' := by
  simp only [digestInput, List.append_assoc] at hSame
  obtain ⟨hCount, hItems⟩ := nat_delimits publicCount.toNat_lt publicCount'.toNat_lt trivial trivial
    (List.append_cancel_left (List.append_cancel_left hSame))
  rw [← List.append_nil (array _ gates), ← List.append_nil (array _ gates')] at hItems
  have hGates := array_delimits (Gate.packed_delimits (p := p)) fun _ _ => rfl
  have hEnd : EndsDigits [] := rfl
  exact ⟨(hGates h h' hEnd hEnd hItems).1, UInt32.toNat_inj.mp hCount⟩

/-- A digest covers the gates with their kinds, wires and coefficients, and the number of public
inputs: different ones are hashed from different bytes. So they share a digest only if their bytes
are a collision of the hash. The modulus is arbitrary. -/
theorem digest_covers (h : Packable gates) (h' : Packable gates') :
    (digestInput gates publicCount = digestInput gates' publicCount' ↔
      gates = gates' ∧ publicCount = publicCount') ∧
    (digestOf gates publicCount = digestOf gates' publicCount' →
      (gates = gates' ∧ publicCount = publicCount') ∨
        Sha256.Collision (digestInput gates publicCount) (digestInput gates' publicCount')) := by
  refine ⟨⟨digestInput_injective h h', ?_⟩, fun hDigest => ?_⟩
  · rintro ⟨rfl, rfl⟩
    rfl
  · by_cases hInput : digestInput gates publicCount = digestInput gates' publicCount'
    · exact .inl (digestInput_injective h h' hInput)
    · exact .inr ⟨hInput, hDigest⟩

/-- Two gates whose coefficients have the same digits one after the other, on a wire with the
largest number. Only the lengths in front of the coefficients tell them apart. -/
theorem digest_covers_same_digits :
    let gates : Nat → Nat → List (Gate pallasPrime) := fun a b =>
      [⟨.generic, Gate.padWires [1, 0xFFFFFFFF], [.ofNat _ a, .ofNat _ b]⟩]
    Packable (gates 1 23) ∧ Packable (gates 12 3) ∧
      digestInput (gates 1 23) 128 ≠ digestInput (gates 12 3) 128 ∧
      (digestOf (gates 1 23) 128 = digestOf (gates 12 3) 128 →
        Sha256.Collision (digestInput (gates 1 23) 128) (digestInput (gates 12 3) 128)) := by
  intro gates
  have hPackable (a b : Nat) : Packable (gates a b) := by simp [Packable, gates]
  have hDifferent : ¬ (gates 1 23 = gates 12 3 ∧ (128 : UInt32) = 128) := by decide +kernel
  obtain ⟨hInput, hDigest⟩ := digest_covers (hPackable 1 23) (hPackable 12 3)
  exact ⟨hPackable 1 23, hPackable 12 3, fun hSame => hDifferent (hInput.mp hSame),
    fun hSame => (hDigest hSame).resolve_left hDifferent⟩

end Circuit

end ArithCircuit
