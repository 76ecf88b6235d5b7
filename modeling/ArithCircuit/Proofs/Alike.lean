import ArithCircuit.Proofs.Compile

/-! Lowering of constraints of the same shape. What is lowered for a constraint depends on its
operands only through their resolved forms, and on the table only through these. Hence constraints
of the same shape whose operands resolve alike, over tables of the same size, are lowered to the
same circuit, or both refused. -/
namespace ArithCircuit

/-- Constraints of the same shape, over operands that are related. -/
inductive Constraint.Alike {p : Nat} (same : Expr p → Expr p → Prop) :
    Constraint p → Constraint p → Prop
  | equal {a a' b b' : Expr p} (ha : same a a') (hb : same b b') :
    Alike same (.equal a b) (.equal a' b')
  | product {a a' b b' c c' : Expr p} (ha : same a a') (hb : same b b') (hc : same c c') :
    Alike same (.product a b c) (.product a' b' c')
  | square {a a' b b' : Expr p} (ha : same a a') (hb : same b b') :
    Alike same (.square a b) (.square a' b')
  | boolean {a a' : Expr p} (ha : same a a') : Alike same (.boolean a) (.boolean a')
  | range {a a' : Expr p} (ha : same a a') (bits : Nat) (variant : RangeVariant) :
    Alike same (.range a bits variant) (.range a' bits variant)
  | raw {operands operands' : List (Expr p)} (kind : GateKind)
    (h : List.Forall₂ same operands operands') (coeffs : List (Residue p)) :
    Alike same (.raw kind operands coeffs) (.raw kind operands' coeffs)

theorem Constraint.Alike.refl {p : Nat} (c : Constraint p) : Alike Eq c c := by
  cases c with
  | equal a b => exact .equal rfl rfl
  | product a b c => exact .product rfl rfl rfl
  | square a b => exact .square rfl rfl
  | boolean a => exact .boolean rfl
  | range a bits variant => exact .range rfl bits variant
  | raw kind operands coeffs => exact .raw kind (List.forall₂_eq_eq_eq ▸ rfl) coeffs

/-- Assertions of the same shape; labels may differ. -/
def Assertion.Alike {p : Nat} (same : Expr p → Expr p → Prop) (k k' : Assertion p) : Prop :=
  k.constraint.Alike same k'.constraint

/-- Related expressions resolve to the same forms in two tables, and so do their differences. -/
structure VariableTable.ResolvesAlike {p : Nat} [Modulus p] (normalize : Bool)
    (table table' : VariableTable p) (same : Expr p → Expr p → Prop) : Prop where
  operand : ∀ {e e'}, same e e' →
    table.resolveAs e.linear normalize = table'.resolveAs e'.linear normalize
  difference : ∀ {a a' b b'}, same a a' → same b b' →
    table.resolveAs (a.linear - b.linear) normalize =
      table'.resolveAs (a'.linear - b'.linear) normalize
  zero : same 0 0

namespace Draft

variable {p : Nat} [Modulus p] {settings : Settings} {table table' : VariableTable p}
  {same : Expr p → Expr p → Prop}

/-- The same draft, and refused or not alike. -/
def Agree (result result' : Except Fault Unit × Draft p) : Prop :=
  result.1.isOk = result'.1.isOk ∧ result.2 = result'.2

omit [Modulus p] in
theorem Agree.cases {result result' : Except Fault Unit × Draft p} (h : Agree result result') :
    (∃ fault fault' draft, result = (.error fault, draft) ∧ result' = (.error fault', draft)) ∨
      ∃ draft, result = (.ok (), draft) ∧ result' = (.ok (), draft) := by
  obtain ⟨fault | _, draft⟩ := result
  · obtain ⟨fault' | _, draft'⟩ := result'
    · obtain rfl : draft = draft' := h.2
      exact .inl ⟨fault, fault', draft, rfl, rfl⟩
    · cases h.1
  · obtain ⟨fault' | _, draft'⟩ := result'
    · cases h.1
    · obtain rfl : draft = draft' := h.2
      exact .inr ⟨draft, rfl, rfl⟩

omit [Modulus p] in
theorem Agree.eq_ok_iff {result result' : Except Fault Unit × Draft p} (h : Agree result result')
    {d : Draft p} : result = (.ok (), d) ↔ result' = (.ok (), d) := by
  rcases h.cases with ⟨fault, fault', draft, rfl, rfl⟩ | ⟨draft, rfl, rfl⟩
  · simp
  · exact Iff.rfl

theorem emitGeneric_agree (draft : Draft p) (k k' : Assertion p) (coeffs : HalfCoeffs p)
    (l r o : Operand p) :
    Agree (draft.emitGeneric settings k coeffs l r o)
      (draft.emitGeneric settings k' coeffs l r o) := by
  simp only [emitGeneric]
  split_ifs
  · exact ⟨rfl, rfl⟩
  · exact ⟨rfl, rfl⟩
  · exact ⟨rfl, rfl⟩

section

variable (h : table.ResolvesAlike settings.normalizeOperands table' same)
include h

theorem operand_congr (draft : Draft p) {e e' : Expr p} (he : same e e') :
    draft.operand settings table e = draft.operand settings table' e' := by
  rw [operand, operand, h.operand he]

theorem operand?_congr (draft : Draft p) {operands operands' : List (Expr p)}
    (hs : List.Forall₂ same operands operands') (i : Nat) :
    draft.operand? settings table operands[i]? = draft.operand? settings table' operands'[i]? := by
  induction hs generalizing i with
  | nil => rfl
  | cons he _ ih =>
      cases i with
      | zero => exact operand_congr h draft he
      | succ i => exact ih i

theorem materializeAll_congr (draft : Draft p) {operands operands' : List (Expr p)}
    (hs : List.Forall₂ same operands operands') :
    materializeAll settings table draft operands =
      materializeAll settings table' draft operands' := by
  induction hs generalizing draft with
  | nil => rfl
  | cons he _ ih => simp only [materializeAll, operand_congr h draft he, ih]

theorem emitEqual_agree (draft : Draft p) (k k' : Assertion p) {a a' b b' : Expr p}
    (ha : same a a') (hb : same b b') :
    Agree (draft.emitEqual settings table k a b) (draft.emitEqual settings table' k' a' b') := by
  simp only [emitEqual, h.difference ha hb]
  split_ifs
  · exact ⟨rfl, rfl⟩
  · exact ⟨rfl, rfl⟩
  · exact ⟨rfl, rfl⟩

theorem emitRawHalf_agree (draft : Draft p) (k k' : Assertion p)
    {operands operands' : List (Expr p)} (hs : List.Forall₂ same operands operands')
    (coeffs : HalfCoeffs p) (start : Nat) :
    Agree (draft.emitRawHalf settings table k operands coeffs start)
      (draft.emitRawHalf settings table' k' operands' coeffs start) := by
  simp only [emitRawHalf, operand?_congr h _ hs]
  split_ifs
  · exact ⟨rfl, rfl⟩
  · exact emitGeneric_agree _ k k' coeffs _ _ _

/-- Alike assertions are lowered alike. -/
theorem lower_agree (draft : Draft p) {k k' : Assertion p} (hAlike : k.Alike same k') :
    Agree (draft.lower settings table k) (draft.lower settings table' k') := by
  obtain ⟨label, c⟩ := k
  obtain ⟨label', c'⟩ := k'
  cases hAlike with
  | equal ha hb => exact emitEqual_agree h draft _ _ ha hb
  | product ha hb hc =>
      simp only [lower, operand_congr h _ ha, operand_congr h _ hb, operand_congr h _ hc]
      exact emitGeneric_agree _ _ _ _ _ _ _
  | square ha hb =>
      simp only [lower, operand_congr h _ ha, operand_congr h _ hb]
      exact emitGeneric_agree _ _ _ _ _ _ _
  | boolean ha =>
      simp only [lower, operand_congr h _ ha]
      exact emitGeneric_agree _ _ _ _ _ _ _
  | range ha bits variant =>
      cases bits with
      | zero => exact emitEqual_agree h draft _ _ ha h.zero
      | succ bits =>
          simp only [lower, operand_congr h _ ha]
          split_ifs
          · exact ⟨rfl, rfl⟩
          · exact ⟨rfl, rfl⟩
          · exact ⟨rfl, rfl⟩
  | raw kind hs coeffs =>
      cases kind with
      | generic =>
          simp only [lower]
          rcases (emitRawHalf_agree h draft ⟨label, _⟩ ⟨label', _⟩ hs
            (.ofListAt coeffs 0) 0).cases with
            ⟨fault, fault', next, hFirst, hFirst'⟩ | ⟨next, hFirst, hFirst'⟩
          · rw [hFirst, hFirst']
            exact ⟨rfl, rfl⟩
          · rw [hFirst, hFirst']
            exact emitRawHalf_agree h next _ _ hs (.ofListAt coeffs 5) 3
      | _ =>
          simp only [lower, materializeAll_congr h _ hs]
          exact ⟨rfl, rfl⟩

theorem lowerAll_agree (draft : Draft p) {ks ks' : List (Assertion p)}
    (hAlike : List.Forall₂ (Assertion.Alike same) ks ks') :
    Agree (lowerAll settings table draft ks) (lowerAll settings table' draft ks') := by
  induction hAlike generalizing draft with
  | nil => exact ⟨rfl, rfl⟩
  | cons hk _ ih =>
      simp only [lowerAll]
      rcases (lower_agree h draft hk).cases with
        ⟨fault, fault', next, hFirst, hFirst'⟩ | ⟨next, hFirst, hFirst'⟩
      · rw [hFirst, hFirst']
        exact ⟨rfl, rfl⟩
      · rw [hFirst, hFirst']
        exact ih next

end

end Draft

/-- Alike assertions over tables of the same size become the same circuit, or none. -/
theorem Recording.assemble_eq_ok_congr {p : Nat} [Modulus p] {recording recording' : Recording p}
    {table table' : VariableTable p} {same : Expr p → Expr p → Prop}
    (hSettings : recording.settings = recording'.settings)
    (hRecorded : recording.recorded = recording'.recorded)
    (h : table.ResolvesAlike recording.settings.normalizeOperands table' same)
    (hSize : table.size = table'.size) (hPublic : table.publicCount = table'.publicCount)
    {ks ks' : List (Assertion p)} (hAlike : List.Forall₂ (Assertion.Alike same) ks ks')
    (unified : Nat) (circuit : Circuit p) :
    recording.assemble table ks unified = .ok circuit ↔
      recording'.assemble table' ks' unified = .ok circuit := by
  rw [hSettings] at h
  have hLower (draft : Draft p) := (Draft.lowerAll_agree h .empty hAlike).eq_ok_iff (d := draft)
  rw [assemble_eq_ok_iff, assemble_eq_ok_iff]
  simp only [hSettings, hRecorded, hSize, hPublic, hLower]

end ArithCircuit
