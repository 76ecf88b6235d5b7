import ArithCircuit.Proofs.Unification
import Mathlib.Data.Set.Card

/-! Unification is exact. A table stands for the assignments that agree with its classes, and an
equation is refused, absorbed or left alone according to what it says about them. The
representatives can be read off these assignments, so equations between two variables may be
absorbed in any order. -/
namespace ArithCircuit.VariableTable

variable {p : Nat} [Modulus p] {table : VariableTable p}

/-- The assignments in which every variable equals the expression of its representative. -/
def solutions (table : VariableTable p) : Set (Nat → Residue p) :=
  {w | table.Consistent w}

/-- The assignments under which the equation `form = 0` holds. -/
def zeros (form : LinearForm p) : Set (Nat → Residue p) :=
  {w | form.value w = 0}

/-- The table after an equation was offered. Unless the equation is absorbed, all that may happen
is that the paths are shortened along which its variables were looked up. -/
def afterUnify (table : VariableTable p) (form : LinearForm p) (policy : Unification)
    (label : Option String) : VariableTable p :=
  match table.unify form policy label with
  | .ok (some next) => next
  | _ => table.compress form

/-- What a run of calls makes of a table. -/
inductive Evolves : VariableTable p → VariableTable p → Prop where
  | refl (table : VariableTable p) : Evolves table table
  | alloc {start table : VariableTable p} (prior : Evolves start table)
      (value : Option (Residue p)) : Evolves start (table.alloc value)
  | allocPublic {start table : VariableTable p} (prior : Evolves start table)
      (hPublic : table.size = table.publicCount) (value : Option (Residue p)) :
      Evolves start (table.allocPublic value)
  | unify {start table : VariableTable p} (prior : Evolves start table) (form : LinearForm p)
      (policy : Unification) (label : Option String) :
      Evolves start (table.afterUnify form policy label)

theorem afterUnify_of_some {form : LinearForm p} {policy : Unification} {label : Option String}
    {next : VariableTable p} (h : table.unify form policy label = .ok (some next)) :
    table.afterUnify form policy label = next := by
  rw [afterUnify, h]

theorem afterUnify_of_not_some {form : LinearForm p} {policy : Unification}
    {label : Option String} (h : ∀ next, table.unify form policy label ≠ .ok (some next)) :
    table.afterUnify form policy label = table.compress form := by
  rw [afterUnify]
  rcases hUnify : table.unify form policy label with stop | _ | next
  · rfl
  · rfl
  · exact absurd hUnify (h next)

theorem Grows.solutions_eq {before after : VariableTable p} (h : before.Grows after)
    (hBefore : before.WellFormed) : after.solutions = before.solutions := by
  ext w
  exact forall_congr' fun x => by rw [h.rep hBefore]

/-- On the solutions of a table, a form has the value of its resolved form. -/
theorem value_resolve_of_mem {w : Nat → Residue p} (hw : w ∈ table.solutions)
    (form : LinearForm p) : (table.resolve form).normalize.value w = form.value w := by
  rw [LinearForm.value_normalize, value_resolve, Consistent.classValue_eq hw]

theorem remaining_nodup (table : VariableTable p) (form : LinearForm p) :
    (table.remaining form).Nodup := by
  have hSorted := LinearForm.normalize_sorted (table.resolve form)
  exact List.pairwise_map.mpr (hSorted.imp fun h => h.ne)

/-- An equation in which no variable remains is decided. -/
theorem unify_of_remaining_nil {form : LinearForm p} (hNil : table.remaining form = [])
    {policy : Unification} (hPolicy : policy ≠ .off) (label : Option String) :
    table.unify form policy label =
      if (table.resolve form).normalize.constant = 0 then .ok (some (table.compress form))
      else .error (.fault (.unsatisfied label
        ((table.resolve form).normalize.constant.signed ++ " = 0") [])) := by
  have hTerms := List.map_eq_nil_iff.mp hNil
  simp only [unify, if_neg hPolicy, hTerms]

/-- Under the affine policy an equation is left alone when three variables remain in it, or when
all that remain are public. -/
theorem unify_affine_eq_none_iff (table : VariableTable p) (form : LinearForm p)
    (label : Option String) :
    table.unify form .affine label = .ok none ↔
      3 ≤ (table.remaining form).length ∨
        table.remaining form ≠ [] ∧ ∀ r ∈ table.remaining form, table.isPublic r = true := by
  have hSorted := LinearForm.normalize_sorted (table.resolve form)
  have hMap (result : Except Stop (VariableTable p)) : result.map some ≠ .ok none := by
    cases result <;> simp [Except.map]
  simp only [unify, remaining]
  generalize (table.resolve form).normalize = normal at hSorted ⊢
  obtain ⟨terms, constant⟩ := normal
  rcases terms with _ | ⟨⟨c, x⟩, _ | ⟨⟨c', y⟩, _ | ⟨third, rest⟩⟩⟩
  · by_cases hZero : constant = 0 <;> simp [hZero]
  · by_cases hPublic : table.isPublic x = true <;> simp [hPublic, hMap]
  · have hOrder : x < y := (List.pairwise_cons.mp hSorted).1 (c', y) (by simp)
    have hOlder : table.isPublic y = true → table.isPublic x = true := by
      simp only [isPublic, decide_eq_true_eq]
      omega
    by_cases hPublic : table.isPublic y = true <;> simp [hPublic, hOlder, hMap]
  · simp

section Prime

variable [Fact p.Prime]

/-- A table that satisfies the rules stands for at least one assignment. -/
theorem solutions_nonempty (hTable : table.WellFormed) : table.solutions.Nonempty :=
  ⟨_, classValue_consistent hTable 0⟩

theorem unify_solutions (hTable : table.WellFormed) {form : LinearForm p} {policy : Unification}
    {label : Option String} {next : VariableTable p}
    (hUnify : table.unify form policy label = .ok (some next)) :
    next.solutions = table.solutions ∩ zeros form := by
  ext w
  exact (unify_some hTable hUnify).consistent_iff w

/-- One call keeps the rules and the variables, and adds no solution. -/
theorem afterUnify_step (hTable : table.WellFormed) (form : LinearForm p) (policy : Unification)
    (label : Option String) :
    (table.afterUnify form policy label).WellFormed ∧
      (table.afterUnify form policy label).size = table.size ∧
      (table.afterUnify form policy label).solutions ⊆ table.solutions := by
  by_cases hSome : ∃ next, table.unify form policy label = .ok (some next)
  · obtain ⟨next, hUnify⟩ := hSome
    rw [afterUnify_of_some hUnify, unify_solutions hTable hUnify]
    have hNext := unify_some hTable hUnify
    exact ⟨hNext.wellFormed, congrArg Array.size hNext.values, Set.inter_subset_left⟩
  · rw [afterUnify_of_not_some (not_exists.mp hSome)]
    have hAgrees := compress_agrees hTable form
    exact ⟨hAgrees.wellFormed hTable, rfl, fun w hw => (hAgrees.consistent_iff w).mp hw⟩

theorem Evolves.step {start : VariableTable p} (h : Evolves start table)
    (hStart : start.WellFormed) : table.WellFormed ∧ table.solutions ⊆ start.solutions := by
  induction h with
  | refl => exact ⟨hStart, subset_rfl⟩
  | alloc prior value ih =>
      obtain ⟨hTable, hSolutions⟩ := ih
      exact ⟨alloc_wellFormed hTable value,
        ((alloc_grows _ value).solutions_eq hTable).subset.trans hSolutions⟩
  | allocPublic prior hPublic value ih =>
      obtain ⟨hTable, hSolutions⟩ := ih
      exact ⟨allocPublic_wellFormed hTable hPublic value,
        ((allocPublic_grows _ value).solutions_eq hTable).subset.trans hSolutions⟩
  | unify prior form policy label ih =>
      obtain ⟨hTable, hSolutions⟩ := ih
      obtain ⟨hNext, -, hFewer⟩ := afterUnify_step hTable form policy label
      exact ⟨hNext, hFewer.trans hSolutions⟩

theorem Evolves.wellFormed (h : Evolves empty table) : table.WellFormed :=
  (h.step empty_wellFormed).1

/-- An equation in which a variable remains has a solution and can be violated, by assignments that
differ in this variable. -/
theorem exists_values_of_mem_remaining {form : LinearForm p} {r : Nat}
    (hr : r ∈ table.remaining form) :
    ∃ k k', form.value (table.classValue (Pi.single r k)) = 0 ∧
      form.value (table.classValue (Pi.single r k')) ≠ 0 := by
  obtain ⟨⟨c, r⟩, hTerm, rfl⟩ := List.mem_map.mp hr
  have hc := LinearForm.normalize_coeff_ne_zero _ _ hTerm
  have hValue (k : Residue p) : form.value (table.classValue (Pi.single r k)) =
      c * k + (table.resolve form).value 0 := by
    rw [← value_resolve, LinearForm.value_single _ hTerm]
  refine ⟨-(table.resolve form).value 0 / c, (1 - (table.resolve form).value 0) / c, ?_, ?_⟩
  · rw [hValue]
    field_simp
    ring
  · rw [hValue]
    field_simp
    simp

theorem remaining_eq_nil_iff (hTable : table.WellFormed) (form : LinearForm p) :
    table.remaining form = [] ↔
      ∃ k, ∀ w ∈ table.solutions, form.value w = k := by
  constructor
  · intro hNil
    refine ⟨(table.resolve form).normalize.constant, fun w hw => ?_⟩
    rw [← value_resolve_of_mem hw, LinearForm.value_eq, List.map_eq_nil_iff.mp hNil]
    simp
  · rintro ⟨k, hConstant⟩
    by_contra hSome
    obtain ⟨r, hr⟩ := List.exists_mem_of_ne_nil _ hSome
    obtain ⟨x, y, hx, hy⟩ := exists_values_of_mem_remaining hr
    apply hy
    rw [hConstant _ (classValue_consistent hTable _), ← hx,
      hConstant _ (classValue_consistent hTable _)]

/-- The free representatives on which the truth of an equation depends: with the other ones fixed,
a change of this one can make the equation true or false. -/
def dependencies (table : VariableTable p) (form : LinearForm p) : Set Nat :=
  {r | table.Free r ∧ ∃ w ∈ table.solutions, ∃ w' ∈ table.solutions,
    (∀ s, table.Free s → s ≠ r → w s = w' s) ∧ w ∈ zeros form ∧ w' ∉ zeros form}

theorem dependencies_eq (hTable : table.WellFormed) {form : LinearForm p}
    (hForm : ∀ x ∈ form.terms.map Prod.snd, x < table.size) :
    table.dependencies form = {r | r ∈ table.remaining form} := by
  have hFree {r : Nat} (hr : r ∈ table.remaining form) : table.Free r :=
    (free_of_mem_resolve hTable hForm (table.remaining_subset form hr)).1
  ext r
  constructor
  · rintro ⟨-, w, hw, w', hw', hSame, hZero, hNonzero⟩
    by_contra hr
    apply hNonzero
    show form.value w' = 0
    rw [← value_resolve_of_mem hw', ← hZero, ← value_resolve_of_mem hw]
    apply LinearForm.value_congr
    intro s hs
    exact (hSame s (hFree hs) (ne_of_mem_of_not_mem hs hr)).symm
  · intro hr
    obtain ⟨k, k', hk, hk'⟩ := exists_values_of_mem_remaining hr
    refine ⟨hFree hr, _, classValue_consistent hTable _, _, classValue_consistent hTable _,
      fun s hs hne => ?_, hk, hk'⟩
    rw [classValue_of_free hs, classValue_of_free hs, Pi.single_eq_of_ne hne,
      Pi.single_eq_of_ne hne]

theorem encard_dependencies (hTable : table.WellFormed) {form : LinearForm p}
    (hForm : ∀ x ∈ form.terms.map Prod.snd, x < table.size) :
    (table.dependencies form).encard = (table.remaining form).length := by
  rw [dependencies_eq hTable hForm, ← List.coe_toFinset, Set.encard_coe_eq_coe_finsetCard,
    List.toFinset_card_of_nodup (table.remaining_nodup form)]

/-- An equation that holds in all solutions is absorbed, and only paths get shorter. -/
theorem unify_of_solutions_subset (hTable : table.WellFormed) {form : LinearForm p}
    (hHolds : table.solutions ⊆ zeros form) {policy : Unification} (hPolicy : policy ≠ .off)
    (label : Option String) :
    table.unify form policy label = .ok (some (table.compress form)) := by
  have hNil := (remaining_eq_nil_iff hTable form).mpr ⟨0, hHolds⟩
  obtain ⟨w, hw⟩ := solutions_nonempty hTable
  have hZero : form.value w = 0 := hHolds hw
  rw [← value_resolve_of_mem hw, LinearForm.value_eq, List.map_eq_nil_iff.mp hNil,
    LinearForm.sumAt_nil, zero_add] at hZero
  rw [unify_of_remaining_nil hNil hPolicy, if_pos hZero]

/-- An equation that is refused has no solution, and one that is not refused has one. -/
theorem unify_error_iff (hTable : table.WellFormed) {form : LinearForm p}
    (hForm : ∀ x ∈ form.terms.map Prod.snd, x < table.size) {policy : Unification}
    (hPolicy : policy ≠ .off) (label : Option String) :
    (∃ stop, table.unify form policy label = .error stop) ↔ table.solutions ∩ zeros form = ∅ := by
  rw [Set.eq_empty_iff_forall_notMem]
  constructor
  · rintro ⟨stop, hUnify⟩ w ⟨hw, hZero⟩
    exact (unify_error hTable hForm hUnify).2 w hw hZero
  · intro hNever
    rcases hUnify : table.unify form policy label with stop | _ | next
    · exact ⟨stop, rfl⟩
    · -- a variable remains, so the equation can be solved for it
      have hSome : table.remaining form ≠ [] := by
        intro hNil
        rw [unify_of_remaining_nil hNil hPolicy] at hUnify
        split_ifs at hUnify
        cases hUnify
      obtain ⟨r, hr⟩ := List.exists_mem_of_ne_nil _ hSome
      obtain ⟨k, -, hZero, -⟩ := exists_values_of_mem_remaining hr
      exact absurd ⟨classValue_consistent hTable _, hZero⟩ (hNever _)
    · obtain ⟨w, hw⟩ := solutions_nonempty (unify_some hTable hUnify).wellFormed
      rw [unify_solutions hTable hUnify] at hw
      exact absurd hw (hNever w)

/-- Unification is exact. Of an equation over the variables of a table that a run has reached, it is
refused iff no solution of the table satisfies it, and absorbing it leaves the solutions that do.
Representatives change in no other case. The affine policy leaves an equation alone iff its truth
depends on three or more free representatives, or on one or two that are all public. An equation
that has been absorbed stays absorbed. -/
theorem unify_exact (hTable : Evolves empty table) {form : LinearForm p}
    (hForm : ∀ x ∈ form.terms.map Prod.snd, x < table.size) {policy : Unification}
    (hPolicy : policy ≠ .off) (label : Option String) :
    ((∃ stop, table.unify form policy label = .error stop) ↔
      table.solutions ∩ zeros form = ∅) ∧
    (∀ stop, table.unify form policy label = .error stop →
      ∃ statement, stop = .fault (.unsatisfied label statement [])) ∧
    (∀ next, table.unify form policy label = .ok (some next) →
      next.solutions = table.solutions ∩ zeros form) ∧
    ((∀ next, table.unify form policy label ≠ .ok (some next)) →
      ∀ x, (table.afterUnify form policy label).rep x = table.rep x) ∧
    (policy = .affine →
      (table.unify form policy label = .ok none ↔
        3 ≤ (table.dependencies form).encard ∨
        (table.dependencies form).Nonempty ∧
          ∀ r ∈ table.dependencies form, table.isPublic r = true)) ∧
    (∀ next later, table.unify form policy label = .ok (some next) → Evolves next later →
      ∀ again ≠ Unification.off, ∀ name, ∃ same,
        later.unify form again name = .ok (some same) ∧ ∀ x, same.rep x = later.rep x) := by
  have hWellFormed := hTable.wellFormed
  refine ⟨unify_error_iff hWellFormed hForm hPolicy label,
    fun stop hUnify => (unify_error hWellFormed hForm hUnify).1,
    fun next => unify_solutions hWellFormed, fun hUnify x => ?_, ?_,
    fun next later hUnify hLater again hAgain name => ?_⟩
  · rw [afterUnify_of_not_some hUnify]
    exact (compress_agrees hWellFormed form).rep x
  · rintro rfl
    rw [unify_affine_eq_none_iff, encard_dependencies hWellFormed hForm,
      dependencies_eq hWellFormed hForm, Nat.ofNat_le_cast]
    exact or_congr_right (and_congr_left fun _ =>
      ⟨List.exists_mem_of_ne_nil _, fun ⟨r, hr⟩ => List.ne_nil_of_mem hr⟩)
  · obtain ⟨hRules, hFewer⟩ := hLater.step (unify_some hWellFormed hUnify).wellFormed
    rw [unify_solutions hWellFormed hUnify] at hFewer
    have hHolds := hFewer.trans Set.inter_subset_right
    exact ⟨_, unify_of_solutions_subset hRules hHolds hAgain name,
      (compress_agrees hRules form).rep⟩

/-- An equation between three variables, of which two are in one class. -/
theorem unify_exact_three_terms :
    let table : VariableTable 7 := (allocated [none] [none, none]).afterUnify
      ⟨[(1 + 1, 1), (1, 2)], 1⟩ .affine none
    let form : LinearForm 7 := ⟨[(1, 0), (1, 1), (1, 2)], 0⟩
    ∃ next, table.unify form .affine none = .ok (some next) ∧
      next.solutions = table.solutions ∩ zeros form ∧ (table.dependencies form).encard < 3 := by
  intro table form
  have : Fact (Nat.Prime 7) := ⟨by decide⟩
  have hTable : Evolves empty table :=
    .unify (.alloc (.alloc (.allocPublic (.refl empty) rfl none) none) none) _ _ _
  have hForm : ∀ x ∈ form.terms.map Prod.snd, x < table.size := by decide +kernel
  have hPolicy : Unification.affine ≠ .off := by decide
  obtain ⟨-, -, hSolutions, -, hLeft, -⟩ := unify_exact hTable hForm hPolicy none
  have hAnswer : (table.unify form .affine none).toOption.join.isSome = true := by decide +kernel
  rcases hUnify : table.unify form .affine none with stop | _ | next
  · rw [hUnify] at hAnswer
    cases hAnswer
  · rw [hUnify] at hAnswer
    cases hAnswer
  · refine ⟨next, rfl, hSolutions next hUnify, lt_of_not_ge fun hMany => ?_⟩
    have hNone := (hLeft rfl).mpr (.inl hMany)
    rw [hUnify] at hNone
    cases hNone

end Prime

end ArithCircuit.VariableTable
