import ArithCircuit.Circuit.Listing
import ArithCircuit.Proofs.Tokens

/-! Names for coefficients. The named coefficients are kept in the order of their first use, beside a
map to their positions. Whatever is inserted, the map and the order agree, so a name says which
coefficient it stands for, and whatever is written for a coefficient, by name or by numeral,
determines it. -/
namespace ArithCircuit

open Text

namespace Residue

variable {p : Nat}

instance : Std.TransOrd (Residue p) := inferInstanceAs (Std.TransCmp (compareOn (val (p := p))))

instance : Std.LawfulEqOrd (Residue p) where
  eq_of_compare h := Residue.ext (Nat.compare_eq_eq.mp h)

end Residue

namespace OrderedSet

section

variable {α : Type} [Ord α]

/-- The two parts of a set agree: the position of a value is the place where it stands. -/
def Agrees (set : OrderedSet α) : Prop :=
  ∀ a i, set.position? a = some i ↔ set.items.toList[i]? = some a

/-- Insert values in order. -/
def insertAll (set : OrderedSet α) (values : List α) : OrderedSet α :=
  values.foldl insert set

namespace Agrees

variable {set other : OrderedSet α}

theorem mem_iff (h : set.Agrees) {a : α} :
    a ∈ set.items.toList ↔ (set.position? a).isSome = true := by
  rw [List.mem_iff_getElem?, Option.isSome_iff_exists]
  exact exists_congr fun i => (h a i).symm

/-- The order of the members decides their positions. -/
theorem position?_eq (h : set.Agrees) (hOther : other.Agrees)
    (hItems : set.items.toList = other.items.toList) : set.position? = other.position? := by
  funext a
  refine Option.ext fun i => ?_
  rw [h a i, hOther a i, hItems]

end Agrees

end

variable {α : Type} [Ord α] [Std.TransOrd α] [Std.LawfulEqOrd α] {set : OrderedSet α}

omit [Std.LawfulEqOrd α] in
theorem agrees_empty : (empty : OrderedSet α).Agrees := by
  intro a i
  simp [position?, empty]

omit [Std.LawfulEqOrd α] in
theorem contains_iff (h : set.Agrees) {a : α} :
    set.positions.contains a = true ↔ a ∈ set.items.toList := by
  rw [Std.TreeMap.contains_eq_isSome_getElem?, h.mem_iff]
  rfl

/-- The last position goes to a value that was no member, and the others stay where they are. -/
theorem insert_of_not_mem (h : set.Agrees) {a : α} (ha : a ∉ set.items.toList) (b : α) (i : Nat) :
    ((set.insert a).position? b = some i ↔
      a = b ∧ i = set.items.size ∨ a ≠ b ∧ set.position? b = some i) ∧
    ((set.insert a).items.toList[i]? = some b ↔
      a = b ∧ i = set.items.size ∨ set.items.toList[i]? = some b) := by
  have hNew : ¬ set.positions.contains a = true := (contains_iff h).not.mpr ha
  obtain ⟨positions, items⟩ := set
  rw [insert, if_neg hNew]
  constructor
  · rw [position?, Std.TreeMap.getElem?_insert]
    by_cases hb : a = b
    · simp [hb, eq_comm]
    · simp [hb, position?]
  · rw [Array.getElem?_toList, Array.getElem?_toList, Array.getElem?_push]
    split_ifs with hi
    · simp [hi]
    · simp [hi]

/-- An insertion keeps the two parts in agreement, and adds the value to the members. -/
theorem Agrees.insert (h : set.Agrees) (a : α) : (set.insert a).Agrees ∧
    ∀ b, b ∈ (set.insert a).items.toList ↔ b ∈ set.items.toList ∨ b = a := by
  by_cases ha : a ∈ set.items.toList
  · have hSame : set.insert a = set := by
      have hOld := (contains_iff h).mpr ha
      obtain ⟨positions, items⟩ := set
      rw [OrderedSet.insert, if_pos hOld]
    rw [hSame]
    exact ⟨h, fun b => ⟨.inl, fun hb => hb.elim id (· ▸ ha)⟩⟩
  · have hInsert := insert_of_not_mem h ha
    constructor
    · intro b i
      rw [(hInsert b i).1, (hInsert b i).2, h b i]
      refine or_congr_right ⟨And.right, fun hItem => ⟨?_, hItem⟩⟩
      rintro rfl
      exact ha (List.mem_of_getElem? hItem)
    · intro b
      simp only [List.mem_iff_getElem?, (hInsert b _).2, exists_or, exists_and_left,
        exists_eq, and_true]
      rw [or_comm, eq_comm]

/-- Whatever is inserted, and in whatever order, the two parts agree, and the members are the values
inserted. -/
theorem Agrees.insertAll (h : set.Agrees) (values : List α) : (set.insertAll values).Agrees ∧
    ∀ a, a ∈ (set.insertAll values).items.toList ↔ a ∈ set.items.toList ∨ a ∈ values := by
  induction values generalizing set with
  | nil => exact ⟨h, by simp [OrderedSet.insertAll]⟩
  | cons value rest ih =>
      obtain ⟨hAgrees, hMembers⟩ := h.insert value
      obtain ⟨hAll, hAllMembers⟩ := ih hAgrees
      refine ⟨hAll, fun a => (hAllMembers a).trans ?_⟩
      rw [hMembers, List.mem_cons, or_assoc]

end OrderedSet

namespace Circuit

variable {p : Nat}

theorem namedCoeffs_eq (gates : List (Gate p)) : namedCoeffs gates =
    OrderedSet.empty.insertAll ((gates.flatMap Gate.coeffs).filter isNamed) :=
  (List.foldl_filter ..).symm

theorem namedCoeffs_agrees (gates : List (Gate p)) : (namedCoeffs gates).Agrees := by
  rw [namedCoeffs_eq]
  exact (OrderedSet.agrees_empty.insertAll _).1

/-- The named coefficients are the long ones of the gates. -/
theorem mem_namedCoeffs {gates : List (Gate p)} {coeff : Residue p} :
    coeff ∈ (namedCoeffs gates).items.toList ↔
      coeff ∈ gates.flatMap Gate.coeffs ∧ isNamed coeff = true := by
  rw [namedCoeffs_eq, (OrderedSet.agrees_empty.insertAll _).2, List.mem_filter]
  simp [OrderedSet.empty]

/-- A coefficient is written by its name or by its numeral. -/
theorem coeffText_cases (named : OrderedSet (Residue p)) (coeff : Residue p) :
    coeffText named coeff = coeff.signed ∧
        (isNamed coeff = true → named.position? coeff = none) ∨
      ∃ i, named.position? coeff = some i ∧ coeffText named coeff = coeffName i := by
  rw [coeffText]
  split_ifs with hNamed
  · cases hPosition : named.position? coeff with
    | none => exact .inl ⟨rfl, fun _ => rfl⟩
    | some i => exact .inr ⟨i, rfl, rfl⟩
  · exact .inl ⟨rfl, fun h => absurd h hNamed⟩

theorem coeffName_injective : Function.Injective coeffName := by
  intro i j h
  rw [coeffName, coeffName, String.append_right_inj, Nat.repr_inj] at h
  exact h

theorem avoids_coeffName {c : Char} (hDigit : c.isDigit = false) (hName : c ≠ 'c') (i : Nat) :
    Avoids c (coeffName i) := by
  rw [coeffName, avoids_append]
  exact ⟨by simpa [Avoids] using hName, avoids_repr hDigit i⟩

theorem avoids_coeffText {c : Char} (hDigit : c.isDigit = false) (hSign : c ≠ '-')
    (hName : c ≠ 'c') (named : OrderedSet (Residue p)) (coeff : Residue p) :
    Avoids c (coeffText named coeff) := by
  rcases coeffText_cases named coeff with ⟨hText, -⟩ | ⟨i, -, hText⟩
  · rw [hText]
    exact coeff.avoids_signed hDigit hSign
  · rw [hText]
    exact avoids_coeffName hDigit hName i

theorem coeffText_ne_empty (named : OrderedSet (Residue p)) (coeff : Residue p) :
    coeffText named coeff ≠ "" := by
  rcases coeffText_cases named coeff with ⟨hText, -⟩ | ⟨i, -, hText⟩
  · rw [hText]
    exact coeff.signed_ne_empty
  · rw [hText, coeffName, ne_eq, ← String.toList_inj]
    simp

/-- What is written for a coefficient determines it, given the names. -/
theorem coeffText_injective [Modulus p] {named : OrderedSet (Residue p)} (hNamed : named.Agrees) :
    Function.Injective (coeffText named) := by
  have hApart (coeff : Residue p) (i : Nat) : coeff.signed ≠ coeffName i := by
    intro hSame
    have hLetter := coeff.avoids_signed (by decide : 'c'.isDigit = false) (by decide)
    rw [hSame, coeffName, avoids_append] at hLetter
    exact absurd hLetter.1 (by decide)
  intro coeff coeff' h
  rcases coeffText_cases named coeff with ⟨hText, -⟩ | ⟨i, hItem, hText⟩
  · rcases coeffText_cases named coeff' with ⟨hText', -⟩ | ⟨i', -, hText'⟩
    · exact Residue.signed_injective (hText.symm.trans (h.trans hText'))
    · exact absurd (hText.symm.trans (h.trans hText')) (hApart coeff i')
  · rcases coeffText_cases named coeff' with ⟨hText', -⟩ | ⟨i', hItem', hText'⟩
    · exact absurd (hText'.symm.trans (h.symm.trans hText)) (hApart coeff' i)
    · obtain rfl := coeffName_injective (hText.symm.trans (h.trans hText'))
      rw [hNamed] at hItem hItem'
      exact Option.some.inj (hItem.symm.trans hItem')

end Circuit

end ArithCircuit
