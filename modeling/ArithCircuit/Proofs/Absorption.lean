import ArithCircuit.Proofs.Constraint
import ArithCircuit.Proofs.Unification
import ArithCircuit.Recording

/-! Offering assertions to the classes. Where the classes hold, an assertion and the simpler form in
which it is offered have the same solutions. One that is absorbed becomes a condition on the
assignments of the table, and one that is refused has no solution there. -/
namespace ArithCircuit

namespace VariableTable

variable {p : Nat} [Modulus p] {table : VariableTable p}

theorem value_of_constantOf? {e : Expr p} {k : Residue p} (h : table.constantOf? e = some k)
    {w : Nat → Residue p} (hw : table.Consistent w) : e.value w = k := by
  unfold constantOf? LinearForm.constant? at h
  split_ifs at h with hTerms
  have hValue : (table.resolve e.linear.normalize).normalize.value w = k := by
    rw [LinearForm.value_eq, hTerms, LinearForm.sumAt_nil, zero_add]
    exact Option.some.inj h
  rwa [LinearForm.value_normalize, value_resolve, hw.classValue_eq, LinearForm.value_normalize,
    Expr.value_linear] at hValue

/-- A product by a constant and the equality that replaces it have the same consistent solutions. -/
theorem holds_linearize_iff (c : Constraint p) {w : Nat → Residue p} (hw : table.Consistent w) :
    (table.linearize c).Holds w ↔ c.Holds w := by
  cases c with
  | product a b o =>
      simp only [linearize]
      split
      · rename_i k ha
        simp only [Constraint.Holds, Expr.value_scaleBy, value_of_constantOf? ha hw]
      · rename_i k ha hb
        simp only [Constraint.Holds, Expr.value_scaleBy, value_of_constantOf? hb hw, mul_comm]
      · exact Iff.rfl
  | square a b =>
      simp only [linearize]
      split
      · rename_i k ha
        simp only [Constraint.Holds, value_of_constantOf? ha hw]
        exact Iff.rfl
      · exact Iff.rfl
  | equal a b => exact Iff.rfl
  | boolean a => exact Iff.rfl
  | range a bits variant => exact Iff.rfl
  | raw kind operands coeffs => exact Iff.rfl

theorem linearize_vars_subset (c : Constraint p) : (table.linearize c).vars ⊆ c.vars := by
  cases c with
  | product a b o =>
      simp only [linearize]
      split
      · intro i hi
        simp only [Constraint.vars, List.mem_append] at hi ⊢
        exact hi.imp_left fun h => .inr ((Expr.vars_scaleBy_sublist b _).subset h)
      · intro i hi
        simp only [Constraint.vars, List.mem_append] at hi ⊢
        exact hi.imp_left fun h => .inl ((Expr.vars_scaleBy_sublist a _).subset h)
      · exact List.Subset.refl _
  | square a b =>
      simp only [linearize]
      split
      · intro i hi
        exact List.mem_append_right _ hi
      · exact List.Subset.refl _
  | equal a b => exact List.Subset.refl _
  | boolean a => exact List.Subset.refl _
  | range a bits variant => exact List.Subset.refl _
  | raw kind operands coeffs => exact List.Subset.refl _

/-- Linearization only turns equations into equalities. -/
theorem linearize_cases (c : Constraint p) :
    table.linearize c = c ∨ c.isAlgebraic = true ∧ ∃ a b, table.linearize c = .equal a b := by
  cases c with
  | product a b o =>
      simp only [linearize]
      split
      · exact .inr ⟨rfl, _, _, rfl⟩
      · exact .inr ⟨rfl, _, _, rfl⟩
      · exact .inl rfl
  | square a b =>
      simp only [linearize]
      split
      · exact .inr ⟨rfl, _, _, rfl⟩
      · exact .inl rfl
  | equal a b => exact .inl rfl
  | boolean a => exact .inl rfl
  | range a bits variant => exact .inl rfl
  | raw kind operands coeffs => exact .inl rfl

/-- The form in which a constraint is offered to the classes. -/
def offered (table : VariableTable p) (settings : Settings) (c : Constraint p) : Constraint p :=
  if settings.foldConstants then table.linearize c else c

theorem offered_cases (table : VariableTable p) (settings : Settings) (c : Constraint p) :
    table.offered settings c = c ∨
      c.isAlgebraic = true ∧ ∃ a b, table.offered settings c = .equal a b := by
  rw [offered]
  split_ifs
  · exact linearize_cases c
  · exact .inl rfl

theorem offered_arity (table : VariableTable p) (settings : Settings) {c : Constraint p}
    (h : c.checkArity = .ok ()) : (table.offered settings c).checkArity = .ok () := by
  rcases offered_cases table settings c with hSame | ⟨-, a, b, hEqual⟩
  · rw [hSame, h]
  · rw [hEqual]
    rfl

theorem holds_offered_iff (settings : Settings) (c : Constraint p) {w : Nat → Residue p}
    (hw : table.Consistent w) : (table.offered settings c).Holds w ↔ c.Holds w := by
  rw [offered]
  split_ifs
  · exact holds_linearize_iff c hw
  · exact Iff.rfl

theorem offered_vars_subset (table : VariableTable p) (settings : Settings) (c : Constraint p) :
    (table.offered settings c).vars ⊆ c.vars := by
  rw [offered]
  split_ifs
  · exact linearize_vars_subset c
  · exact List.Subset.refl _

/-- Everything that can become of an assertion that is offered to the classes. -/
theorem absorb_cases (table : VariableTable p) (settings : Settings) (assertion : Assertion p) :
    (∃ a b, table.offered settings assertion.constraint = .equal a b ∧
      ((∃ stop, table.unify (a.linear - b.linear) settings.unification assertion.label =
          .error stop ∧ table.absorb settings assertion = .error stop) ∨
        ∃ next, table.unify (a.linear - b.linear) settings.unification assertion.label =
          .ok (some next) ∧ table.absorb settings assertion = .ok (.absorbed next))) ∨
    table.absorb settings assertion =
      .ok (.kept ⟨assertion.label, table.offered settings assertion.constraint⟩) := by
  generalize hResult : table.absorb settings assertion = result
  unfold absorb at hResult
  simp only at hResult
  rw [← offered] at hResult
  split at hResult
  · rename_i a b hEqual
    split at hResult
    · rename_i stop hUnify
      exact .inl ⟨a, b, hEqual, .inl ⟨stop, hUnify, hResult.symm⟩⟩
    · rename_i next hUnify
      exact .inl ⟨a, b, hEqual, .inr ⟨next, hUnify, hResult.symm⟩⟩
    · exact .inr hResult.symm
  · exact .inr hResult.symm

theorem value_difference_eq_zero_iff (w : Nat → Residue p) (a b : Expr p) :
    (a.linear - b.linear).value w = 0 ↔ a.value w = b.value w := by
  rw [LinearForm.value_sub, Expr.value_linear, Expr.value_linear, sub_eq_zero]

theorem difference_vars (a b : Expr p) :
    (a.linear - b.linear).terms.map Prod.snd = (Constraint.equal a b).vars := by
  rw [LinearForm.sub_vars, Expr.linear_vars, Expr.linear_vars, Constraint.vars]

/-- An assertion that is absorbed becomes a condition on the assignments of the table. -/
theorem absorb_absorbed [Fact p.Prime] (hTable : table.WellFormed) {settings : Settings}
    {assertion : Assertion p} {next : VariableTable p}
    (hAbsorb : table.absorb settings assertion = .ok (.absorbed next)) :
    table.Restricts assertion.constraint.vars (fun w => assertion.constraint.Holds w) next := by
  rcases absorb_cases table settings assertion with
    ⟨a, b, hEqual, ⟨stop, -, hCase⟩ | ⟨next', hUnify, hCase⟩⟩ | hCase
  · rw [hCase] at hAbsorb
    cases hAbsorb
  · rw [hCase] at hAbsorb
    cases hAbsorb
    have hSubset := offered_vars_subset table settings assertion.constraint
    rw [hEqual, ← difference_vars] at hSubset
    have hNext := unify_some hTable hUnify
    refine ⟨hNext.wellFormed, hNext.values, hNext.publicCount, fun w => ?_,
      fun known hKnown => hNext.closed known fun x hx => hKnown x (hSubset hx), hNext.free⟩
    rw [hNext.consistent_iff]
    refine and_congr_right fun hw => ?_
    rw [value_difference_eq_zero_iff, ← holds_offered_iff settings _ hw, hEqual]
    exact Iff.rfl
  · rw [hCase] at hAbsorb
    cases hAbsorb

/-- An assertion is refused only when no consistent assignment satisfies it. -/
theorem absorb_error [Fact p.Prime] (hTable : table.WellFormed) {settings : Settings}
    {assertion : Assertion p} (hVars : ∀ x ∈ assertion.constraint.vars, x < table.size)
    {stop : Stop} (hAbsorb : table.absorb settings assertion = .error stop) :
    (∃ statement, stop = .fault (.unsatisfied assertion.label statement [])) ∧
      ∀ w, table.Consistent w → ¬ assertion.constraint.Holds w := by
  rcases absorb_cases table settings assertion with
    ⟨a, b, hEqual, ⟨stop', hUnify, hCase⟩ | ⟨next, -, hCase⟩⟩ | hCase
  · rw [hCase] at hAbsorb
    cases hAbsorb
    have hSubset := offered_vars_subset table settings assertion.constraint
    rw [hEqual, ← difference_vars] at hSubset
    obtain ⟨hStop, hNever⟩ := unify_error hTable (fun x hx => hVars x (hSubset hx)) hUnify
    refine ⟨hStop, fun w hw hHolds => hNever w hw ?_⟩
    rw [← holds_offered_iff settings _ hw, hEqual] at hHolds
    exact (value_difference_eq_zero_iff w a b).mpr hHolds
  · rw [hCase] at hAbsorb
    cases hAbsorb
  · rw [hCase] at hAbsorb
    cases hAbsorb

theorem absorb_kept {settings : Settings} {assertion kept : Assertion p}
    (hAbsorb : table.absorb settings assertion = .ok (.kept kept)) :
    kept = ⟨assertion.label, table.offered settings assertion.constraint⟩ := by
  rcases absorb_cases table settings assertion with
    ⟨a, b, -, ⟨stop, -, hCase⟩ | ⟨next, -, hCase⟩⟩ | hCase
  · rw [hCase] at hAbsorb
    cases hAbsorb
  · rw [hCase] at hAbsorb
    cases hAbsorb
  · rw [hCase] at hAbsorb
    cases hAbsorb
    rfl

/-- Only equations are absorbed. -/
theorem isAlgebraic_of_absorbed {settings : Settings} {assertion : Assertion p}
    {next : VariableTable p} (h : table.absorb settings assertion = .ok (.absorbed next)) :
    assertion.constraint.isAlgebraic = true := by
  rcases absorb_cases table settings assertion with ⟨a, b, hEqual, -⟩ | hKept
  · rcases offered_cases table settings assertion.constraint with hSame | ⟨hAlgebraic, -⟩
    · rw [← hSame, hEqual]
      rfl
    · exact hAlgebraic
  · rw [hKept] at h
    cases h

end VariableTable

end ArithCircuit
