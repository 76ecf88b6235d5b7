import ArithCircuit.Proofs.Spelling

/-! Shortened paths are not seen. Tables in which every variable has the same representative give
the same answers to everything that a recording asks them, refusals included: which equations they
absorb, what is kept of the others, and how it is lowered. The count of what was offered is copied
into the circuit and otherwise not looked at. -/
namespace ArithCircuit

namespace VariableTable.Twins

variable {p : Nat} [Modulus p] {size : Nat} {table table' : VariableTable p}

theorem resolve_eq (h : Twins size table table') (form : LinearForm p) :
    table.resolve form = table'.resolve form := by
  have hRep : table.rep = table'.rep := funext h.rep
  simp only [VariableTable.resolve, resolveBefore, hRep]

theorem offered_eq (h : Twins size table table') (settings : Settings) (c : Constraint p) :
    table.offered settings c = table'.offered settings c := by
  have hConstant : table.constantOf? = table'.constantOf? := by
    funext e
    rw [VariableTable.constantOf?, VariableTable.constantOf?, h.resolve_eq]
  rw [VariableTable.offered, VariableTable.offered]
  cases c <;> simp only [VariableTable.linearize, hConstant]

variable [Fact p.Prime]

/-- Twin tables refuse, absorb or keep an assertion in the same way. -/
theorem absorb_eq (h : Twins size table table') (settings : Settings) (k : Assertion p) :
    (∃ stop, table.absorb settings k = .error stop ∧ table'.absorb settings k = .error stop) ∨
    (∃ next next', table.absorb settings k = .ok (.absorbed next) ∧
      table'.absorb settings k = .ok (.absorbed next') ∧ Twins size next next') ∨
    ∃ kept, table.absorb settings k = .ok (.kept kept) ∧
      table'.absorb settings k = .ok (.kept kept) := by
  unfold VariableTable.absorb
  dsimp only
  rw [← VariableTable.offered, ← VariableTable.offered, ← h.offered_eq]
  cases table.offered settings k.constraint with
  | equal a b =>
      have hValue (w : Nat → Residue p) :
          (a.linear - b.linear).value w = (a.linear - b.linear).value w := rfl
      rcases h.unify hValue settings.unification k.label k.label with
        ⟨stop, stop', hUnify, hUnify', hStop⟩ | ⟨hUnify, hUnify'⟩ |
        ⟨next, next', hUnify, hUnify', hNext⟩
      · simp only [hUnify, hUnify', hStop rfl]
        exact .inl ⟨stop', rfl, rfl⟩
      · simp only [hUnify, hUnify']
        exact .inr (.inr ⟨_, rfl, rfl⟩)
      · simp only [hUnify, hUnify']
        exact .inr (.inl ⟨next, next', rfl, rfl, hNext⟩)
  | _ => exact .inr (.inr ⟨_, rfl, rfl⟩)

/-- The last round of absorption has the same result. -/
theorem absorbAll_eq (h : Twins size table table') (settings : Settings)
    (ks : List (Assertion p)) :
    (table.absorbAll settings ks).1 = (table'.absorbAll settings ks).1 ∧
      Twins size (table.absorbAll settings ks).2 (table'.absorbAll settings ks).2 := by
  induction ks generalizing table table' with
  | nil => exact ⟨rfl, h⟩
  | cons k rest ih =>
      rcases h.absorb_eq settings k with ⟨stop, hFirst, hFirst'⟩ |
        ⟨next, next', hFirst, hFirst', hNext⟩ | ⟨kept, hFirst, hFirst'⟩
      · simp only [VariableTable.absorbAll, hFirst, hFirst']
        exact ⟨trivial, h⟩
      · simp only [VariableTable.absorbAll, hFirst, hFirst']
        obtain ⟨hRest, hFinal⟩ := ih hNext
        exact ⟨by rw [hRest], hFinal⟩
      · simp only [VariableTable.absorbAll, hFirst, hFirst']
        obtain ⟨hRest, hFinal⟩ := ih h
        exact ⟨by rw [hRest], hFinal⟩

end VariableTable.Twins

namespace Draft

variable {p : Nat} [Modulus p] {table table' : VariableTable p}

/-- Lowering looks at a table only through resolved forms. -/
theorem lower_eq_of_resolve (h : ∀ form, table.resolve form = table'.resolve form)
    (settings : Settings) (draft : Draft p) (k : Assertion p) :
    draft.lower settings table k = draft.lower settings table' k := by
  have hAlike : table.ResolvesAlike settings.normalizeOperands table' Eq := by
    refine ⟨?_, ?_, rfl⟩
    · rintro e _ rfl
      rw [VariableTable.resolveAs, VariableTable.resolveAs, h]
    · rintro a _ b _ rfl rfl
      rw [VariableTable.resolveAs, VariableTable.resolveAs, h]
  have hOperand (draft : Draft p) (e : Expr p) :
      draft.operand settings table e = draft.operand settings table' e :=
    operand_congr hAlike draft rfl
  have hEqual (a b : Expr p) :
      draft.emitEqual settings table k a b = draft.emitEqual settings table' k a b := by
    simp only [emitEqual, hAlike.difference rfl rfl]
  have hRawHalf (draft : Draft p) (operands : List (Expr p)) (coeffs : HalfCoeffs p)
      (start : Nat) : draft.emitRawHalf settings table k operands coeffs start =
        draft.emitRawHalf settings table' k operands coeffs start := by
    simp only [emitRawHalf, operand?_congr hAlike _ (List.forall₂_same.mpr fun _ _ => rfl)]
  obtain ⟨label, constraint⟩ := k
  cases constraint with
  | equal a b => exact hEqual a b
  | product a b c => simp only [lower, hOperand]
  | square a b => simp only [lower, hOperand]
  | boolean a => simp only [lower, hOperand]
  | range a bits variant =>
      cases bits with
      | zero => exact hEqual a 0
      | succ bits => simp only [lower, hOperand]
  | raw kind operands coeffs =>
      cases kind with
      | generic => simp only [lower, hRawHalf]
      | _ => simp only [lower, materializeAll_congr hAlike _ (List.forall₂_same.mpr fun _ _ => rfl)]

theorem lowerAll_eq_of_resolve (h : ∀ form, table.resolve form = table'.resolve form)
    (settings : Settings) (draft : Draft p) (ks : List (Assertion p)) :
    draft.lowerAll settings table ks = draft.lowerAll settings table' ks := by
  induction ks generalizing draft with
  | nil => rfl
  | cons k rest ih => simp only [lowerAll, lower_eq_of_resolve h, ih]

end Draft

/-- The same circuit with another count of what was offered. -/
def Circuit.recount {p : Nat} (recorded : Nat) (circuit : Circuit p) : Circuit p :=
  { circuit with stats := { circuit.stats with recorded := recorded } }

namespace Recording

variable {p : Nat} [Modulus p] {size : Nat} {table table' : VariableTable p}

/-- The same recording with another count of what was offered. -/
def recount (recorded : Nat) (recording : Recording p) : Recording p :=
  { recording with recorded := recorded }

theorem assemble_recount (recording : Recording p) (recorded : Nat)
    (h : table.Twins size table') (ks : List (Assertion p)) (unified : Nat) :
    (recording.recount recorded).assemble table' ks unified =
      (recording.assemble table ks unified).map (Circuit.recount recorded) := by
  have hSize : table'.size = table.size := h.size_eq'.trans h.size_eq.symm
  simp only [assemble, recount, ← Draft.lowerAll_eq_of_resolve h.resolve_eq, hSize, ← h.publicCount]
  obtain ⟨lowered, draft⟩ := Draft.empty.lowerAll recording.settings table ks
  cases (Layout.ofEmissions recording.settings.batchHalves draft.emitted.toList).gates table.size
    table.publicCount lowered with
  | error fault => rfl
  | ok gates =>
      cases Circuit.publicWord table.publicCount with
      | error fault => rfl
      | ok word => rfl

variable [Fact p.Prime]

/-- Recording an assertion has the same result. -/
theorem add_recount (recording : Recording p) (recorded : Nat) (h : table.Twins size table')
    (k : Assertion p) :
    ((recording.recount recorded).add table' k).1 = (recording.add table k).1 ∧
      (∃ recorded', ((recording.recount recorded).add table' k).2.1 =
        (recording.add table k).2.1.recount recorded') ∧
      VariableTable.Twins size (recording.add table k).2.2
        ((recording.recount recorded).add table' k).2.2 := by
  obtain ⟨settings, waiting, own, unified⟩ := recording
  simp only [recount, add]
  cases k.constraint.checkArity with
  | error fault => exact ⟨rfl, ⟨_, rfl⟩, h⟩
  | ok _ =>
      rcases h.absorb_eq settings k with ⟨stop, hAbsorb, hAbsorb'⟩ |
        ⟨next, next', hAbsorb, hAbsorb', hNext⟩ | ⟨kept, hAbsorb, hAbsorb'⟩
      · rw [hAbsorb, hAbsorb']
        exact ⟨rfl, ⟨_, rfl⟩, h⟩
      · rw [hAbsorb, hAbsorb']
        exact ⟨rfl, ⟨_, rfl⟩, hNext⟩
      · rw [hAbsorb, hAbsorb']
        exact ⟨rfl, ⟨_, rfl⟩, h⟩

/-- Finishing a recording has the same result, but for the count. -/
theorem finalize_recount (recording : Recording p) (recorded : Nat) (h : table.Twins size table') :
    ((recording.recount recorded).finalize table').1 =
      (recording.finalize table).1.map (Circuit.recount recorded) := by
  obtain ⟨hResult, hFinal⟩ := h.absorbAll_eq recording.settings recording.waiting.toList
  have hSettings : (recording.recount recorded).settings = recording.settings := rfl
  have hWaiting : (recording.recount recorded).waiting = recording.waiting := rfl
  have hUnified : (recording.recount recorded).unified = recording.unified := rfl
  simp only [finalize, hSettings, hWaiting, hUnified]
  generalize table.absorbAll recording.settings recording.waiting.toList = last at hResult hFinal ⊢
  generalize table'.absorbAll recording.settings recording.waiting.toList = last'
    at hResult hFinal ⊢
  obtain ⟨result, final⟩ := last
  obtain ⟨result', final'⟩ := last'
  obtain rfl : result = result' := hResult
  rcases result with stop | ⟨waiting, unified⟩
  · rfl
  · dsimp only at hFinal ⊢
    rw [assemble_recount recording recorded hFinal]
    cases recording.assemble final waiting (recording.unified + unified) with
    | error fault => rfl
    | ok circuit => rfl

end Recording

end ArithCircuit
