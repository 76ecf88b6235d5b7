import ArithCircuit.Proofs.VariableTable
import Mathlib.Tactic.FieldSimp

/-! Absorbing equations into the classes. An equation that is absorbed restricts the consistent
assignments to those that satisfy it, and an equation is refused only when none of them does. Public
inputs stay free, and at most one variable stops being free at a time. -/
namespace ArithCircuit.VariableTable

variable {p : Nat} [Modulus p] {table : VariableTable p}

/-- Direct a free representative to what it is worth from now on. -/
def direct (table : VariableTable p) (x : Nat) (rep : Rep p) : VariableTable p :=
  { table with classes := table.classes.direct x rep }

/-- A representative to which another one may be directed: a constant, or an older free variable
with an invertible relation. -/
def Older (table : VariableTable p) (x : Nat) (rep : Rep p) : Prop :=
  ∀ r c o, rep = .var r c o → r < x ∧ c ≠ 0 ∧ table.Free r

theorem direct_wellFormed (hTable : table.WellFormed) {x : Nat} {rep : Rep p}
    (hPrivate : table.publicCount ≤ x) (hOlder : table.Older x rep) :
    (table.direct x rep).WellFormed where
  classes := Forest.direct_wellFormed hTable.classes fun r c o h =>
    ⟨(hOlder r c o h).1, (hOlder r c o h).2.1⟩
  sized := (Forest.direct_size x rep).trans hTable.sized
  publicCount_le := hTable.publicCount_le
  public_free i hi := by
    have hne : x ≠ i := by
      have : i < table.publicCount := hi
      omega
    exact (Forest.direct_other hne rep).trans (hTable.public_free i hi)

theorem rep_direct (hTable : table.WellFormed) {x : Nat} {rep : Rep p}
    (hFree : table.Free x) (hOlder : table.Older x rep) (y : Nat) :
    (table.direct x rep).rep y =
      (table.rep y).redirect fun r => if r = x then rep else .ofVar r := by
  have hFind := Forest.find_direct_root hTable.classes hFree hOlder y
  by_cases hy : y < table.size
  · rw [find_eq_rep hTable hy] at hFind
    exact rep_of_find hFind
  · have hx : x < table.classes.size := (Array.getElem?_eq_some_iff.mp hFree).1
    have hne : y ≠ x := by
      rw [hTable.sized] at hx
      omega
    have hOld := Forest.find_of_le (hTable.sized ▸ Nat.le_of_not_lt hy : table.classes.size ≤ y)
    rw [hOld] at hFind
    rw [rep_of_le hTable (Nat.le_of_not_lt hy), Rep.redirect_ofVar, if_neg hne]
    rw [VariableTable.rep]
    exact congrArg (Option.getD · (.ofVar y)) hFind

theorem consistent_direct_iff (hTable : table.WellFormed) {x : Nat} {rep : Rep p}
    (hPrivate : table.publicCount ≤ x) (hFree : table.Free x)
    (hOlder : table.Older x rep) (w : Nat → Residue p) :
    (table.direct x rep).Consistent w ↔ table.Consistent w ∧ w x = rep.value w := by
  rw [consistent_iff_holds hTable, consistent_iff_holds (direct_wellFormed hTable hPrivate hOlder)]
  exact Forest.holds_direct_root hFree rep w

omit [Modulus p] in
theorem pin_of_free {x : Nat} (hFree : table.Free x) (k : Residue p) :
    table.pin x k = .ok (table.direct x (.const k)) := by
  simp only [pin, Forest.pin?, if_pos (Forest.isRoot_iff.mpr hFree)]
  rfl

omit [Modulus p] in
theorem pin_of_not_free {x : Nat} (hFree : ¬ table.Free x) (k : Residue p) :
    table.pin x k = .error .abort := by
  have hRoot : ¬ table.classes.isRoot x := fun h => hFree (Forest.isRoot_iff.mp h)
  simp only [pin, Forest.pin?, if_neg hRoot]

theorem link_of_free {child parent : Nat} {coeff : Residue p} (hOrder : parent < child)
    (hChild : table.Free child)
    (hParent : table.Free parent) (hCoeff : coeff ≠ 0)
    (offset : Residue p) :
    table.link child parent coeff offset = .ok (table.direct child (.var parent coeff offset)) := by
  have hRules : parent < child ∧ table.classes.isRoot child ∧ table.classes.isRoot parent ∧
      coeff ≠ 0 := ⟨hOrder, Forest.isRoot_iff.mpr hChild, Forest.isRoot_iff.mpr hParent, hCoeff⟩
  simp only [link, Forest.link?, if_pos hRules]
  rfl

theorem link_of_not_free {child parent : Nat} (hFree : ¬ (table.Free child ∧ table.Free parent))
    (coeff offset : Residue p) : table.link child parent coeff offset = .error .abort := by
  have hRules : ¬ (parent < child ∧ table.classes.isRoot child ∧ table.classes.isRoot parent ∧
      coeff ≠ 0) := fun h =>
    hFree ⟨Forest.isRoot_iff.mp h.2.1, Forest.isRoot_iff.mp h.2.2.1⟩
  simp only [link, Forest.link?, if_neg hRules]

/-- A variable of a resolved form is free, and stays so when paths are shortened. -/
theorem free_of_mem_resolve [Fact p.Prime] (hTable : table.WellFormed) {form : LinearForm p}
    (hForm : ∀ x ∈ form.terms.map Prod.snd, x < table.size) {r : Nat}
    (hr : r ∈ (table.resolve form).terms.map Prod.snd) :
    table.Free r ∧ (table.compress form).Free r := by
  obtain ⟨x, hx, c, o, hRep⟩ := exists_rep_of_mem_resolve table form hr
  have hFree := (rep_var hTable (hForm x hx) hRep).1
  exact ⟨hFree, ((compress_agrees hTable form).classes.root r).mpr hFree⟩

/-- The variables that are left of a form when it is written over representatives and collected. -/
def remaining (table : VariableTable p) (form : LinearForm p) : List Nat :=
  (table.resolve form).normalize.terms.map Prod.snd

theorem remaining_subset (table : VariableTable p) (form : LinearForm p) :
    table.remaining form ⊆ (table.resolve form).terms.map Prod.snd :=
  LinearForm.normalize_vars _

/-- Everything that unification can do. An equation without representatives is decided, one that
determines a free private representative directs it, and any other is left alone. The call is out
of the rules when a variable is left that is not in the table. -/
theorem unify_cases [Fact p.Prime] (hTable : table.WellFormed) (form : LinearForm p)
    (policy : Unification) (label : Option String) :
    table.unify form policy label = .ok none ∨
    (table.unify form policy label = .ok (some (table.compress form)) ∧
      ∀ u, (table.resolve form).value u = 0) ∨
    (∃ statement,
      table.unify form policy label = .error (.fault (.unsatisfied label statement [])) ∧
      ∀ u, (table.resolve form).value u ≠ 0) ∨
    (∃ x rep, table.unify form policy label = .ok (some ((table.compress form).direct x rep)) ∧
      (∀ r ∈ table.remaining form, table.Free r) ∧
      x ∈ table.remaining form ∧ table.publicCount ≤ x ∧
      (∀ r c o, rep = .var r c o → r < x ∧ c ≠ 0 ∧ r ∈ table.remaining form) ∧
      ∀ u, (table.resolve form).value u = 0 ↔ u x = rep.value u) ∨
    (table.unify form policy label = .error .abort ∧
      ∃ r ∈ table.remaining form, ¬ table.Free r) := by
  have hValue (u : Nat → Residue p) := LinearForm.value_normalize u (table.resolve form)
  have hNonzero := LinearForm.normalize_coeff_ne_zero (table.resolve form)
  have hSorted := LinearForm.normalize_sorted (table.resolve form)
  have hFree (r : Nat) : (table.compress form).Free r ↔ table.Free r :=
    (compress_agrees hTable form).classes.root r
  generalize hResult : table.unify form policy label = result
  unfold unify at hResult
  rw [remaining]
  generalize (table.resolve form).normalize = normal at hResult hValue hNonzero hSorted
  obtain ⟨terms, constant⟩ := normal
  split_ifs at hResult
  · exact .inl hResult.symm
  rcases terms with _ | ⟨⟨c, x⟩, _ | ⟨⟨c', y⟩, _ | ⟨third, rest⟩⟩⟩
  · have hConstant (u : Nat → Residue p) : (table.resolve form).value u = constant := by
      rw [← hValue u, LinearForm.value_eq]
      simp
    simp only at hResult
    split_ifs at hResult with hZero
    · exact .inr (.inl ⟨hResult.symm, fun u => (hConstant u).trans hZero⟩)
    · exact .inr (.inr (.inl ⟨_, hResult.symm, fun u h => hZero ((hConstant u).symm.trans h)⟩))
  · have hc : c ≠ 0 := hNonzero (c, x) (by simp)
    simp only at hResult
    split_ifs at hResult with hLeave
    · exact .inl hResult.symm
    have hPublic : ¬ table.isPublic x = true := fun h => hLeave (.inl h)
    by_cases hx : (table.compress form).Free x
    · rw [pin_of_free hx] at hResult
      refine .inr (.inr (.inr (.inl ⟨x, _, hResult.symm, ?_, by simp, ?_, ?_, fun u => ?_⟩)))
      · simpa using (hFree x).mp hx
      · simpa [isPublic] using hPublic
      · rintro r c' o' ⟨⟩
      · rw [← hValue u, LinearForm.value_eq]
        simp only [LinearForm.sumAt_cons, LinearForm.sumAt_nil, Rep.value]
        constructor
        · intro h
          field_simp
          linear_combination h
        · intro h
          rw [h]
          field_simp
          ring
    · rw [pin_of_not_free hx] at hResult
      exact .inr (.inr (.inr (.inr ⟨hResult.symm, x, by simp, fun h => hx ((hFree x).mpr h)⟩)))
  · have hc : c ≠ 0 := hNonzero (c, x) (by simp)
    have hc' : c' ≠ 0 := hNonzero (c', y) (by simp)
    have hOrder : x < y := (List.pairwise_cons.mp hSorted).1 (c', y) (by simp)
    have hCoeff : -c / c' ≠ 0 := div_ne_zero (neg_ne_zero.mpr hc) hc'
    simp only at hResult
    split_ifs at hResult with hLeave
    · exact .inl hResult.symm
    have hPublic : ¬ table.isPublic y = true := fun h => hLeave (.inl h)
    by_cases hRoots : (table.compress form).Free y ∧ (table.compress form).Free x
    · rw [link_of_free hOrder hRoots.1 hRoots.2 hCoeff] at hResult
      refine .inr (.inr (.inr (.inl ⟨y, _, hResult.symm, ?_, by simp, ?_, ?_, fun w => ?_⟩)))
      · simpa using ⟨(hFree x).mp hRoots.2, (hFree y).mp hRoots.1⟩
      · simpa [isPublic] using hPublic
      · intro r c o h
        obtain ⟨rfl, rfl, rfl⟩ := Rep.var.inj h
        exact ⟨hOrder, hCoeff, by simp⟩
      · rw [← hValue w, LinearForm.value_eq]
        simp only [LinearForm.sumAt_cons, LinearForm.sumAt_nil, Rep.value]
        constructor
        · intro h
          field_simp
          linear_combination h
        · intro h
          rw [h]
          field_simp
          ring
    · rw [link_of_not_free hRoots] at hResult
      refine .inr (.inr (.inr (.inr ⟨hResult.symm, ?_⟩)))
      rw [hFree, hFree, and_comm, not_and_or] at hRoots
      simpa using hRoots
  · exact .inl hResult.symm

/-- The next table is the first one with one more condition on its assignments, which concerns the
given variables only. At most one variable stops being free. -/
structure Restricts (table : VariableTable p) (vars : List Nat)
    (condition : (Nat → Residue p) → Prop) (next : VariableTable p) : Prop where
  wellFormed : next.WellFormed
  values : next.values = table.values
  publicCount : next.publicCount = table.publicCount
  consistent_iff : ∀ w, next.Consistent w ↔ table.Consistent w ∧ condition w
  closed : ∀ known : Nat → Prop, (∀ x ∈ vars, known x) → table.ClosedUnder known →
    next.ClosedUnder known
  free : ∃ x, ∀ y ≠ x, table.Free y → next.Free y

theorem Agrees.consistent_iff {before after : VariableTable p} (h : before.Agrees after)
    (w : Nat → Residue p) : after.Consistent w ↔ before.Consistent w :=
  forall_congr' fun x => by rw [h.rep x]

theorem ClosedUnder.direct {known : Nat → Prop} (hClosed : table.ClosedUnder known)
    (hTable : table.WellFormed) {x : Nat} {rep : Rep p}
    (hFree : table.Free x) (hOlder : table.Older x rep)
    (hKnown : ∀ r c o, rep = .var r c o → known r) : (table.direct x rep).ClosedUnder known := by
  intro y r c o hy hRep
  rw [rep_direct hTable hFree hOlder] at hRep
  cases hOld : table.rep y with
  | const k =>
      rw [hOld] at hRep
      cases hRep
  | var r' c' o' =>
      rw [hOld, Rep.redirect] at hRep
      split_ifs at hRep with hSame
      · cases rep with
        | const k => cases hRep
        | var r'' c'' o'' =>
            obtain ⟨rfl, -, -⟩ := Rep.var.inj hRep
            exact hKnown _ _ _ rfl
      · obtain ⟨rfl, -, -⟩ := Rep.var.inj hRep
        exact hClosed y _ _ _ hy hOld

/-- An equation that the classes take in restricts the assignments to its solutions. -/
theorem unify_some [Fact p.Prime] (hTable : table.WellFormed) {form : LinearForm p}
    {policy : Unification} {label : Option String} {next : VariableTable p}
    (hUnify : table.unify form policy label = .ok (some next)) :
    table.Restricts (form.terms.map Prod.snd) (fun w => form.value w = 0) next := by
  rcases unify_cases hTable form policy label with
    hCase | ⟨hCase, hZero⟩ | ⟨statement, hCase, -⟩ |
      ⟨x, rep, hCase, hFrees, hx, hPrivate, hOlder, hEquation⟩ | ⟨hCase, -⟩
  · rw [hCase] at hUnify
    cases hUnify
  · rw [hCase] at hUnify
    cases hUnify
    have hAgrees := compress_agrees hTable form
    refine ⟨hAgrees.wellFormed hTable, rfl, rfl, fun w => ?_, fun known _ hClosed => ?_,
      ⟨0, fun y _ hFree => (hAgrees.classes.root y).mpr hFree⟩⟩
    · rw [hAgrees.consistent_iff, iff_self_and]
      intro hw
      rw [← hw.classValue_eq, ← value_resolve]
      exact hZero w
    · intro y r c o hy hRep
      rw [hAgrees.rep y] at hRep
      exact hClosed y r c o hy hRep
  · rw [hCase] at hUnify
    cases hUnify
  · rw [hCase] at hUnify
    cases hUnify
    have hAgrees := compress_agrees hTable form
    have hShort := hAgrees.wellFormed hTable
    have hRoot {r : Nat} (hr : r ∈ table.remaining form) : (table.compress form).Free r :=
      (hAgrees.classes.root r).mpr (hFrees r hr)
    have hFree := hRoot hx
    have hDirected : (table.compress form).Older x rep := fun r c o h =>
      ⟨(hOlder r c o h).1, (hOlder r c o h).2.1, hRoot (hOlder r c o h).2.2⟩
    refine ⟨direct_wellFormed hShort hPrivate hDirected, rfl, rfl, fun w => ?_,
      fun known hVars hClosed => ?_, ⟨x, fun y hne hOld => ?_⟩⟩
    · rw [consistent_direct_iff hShort hPrivate hFree hDirected, hAgrees.consistent_iff]
      refine and_congr_right fun hw => ?_
      rw [← hEquation w, value_resolve, hw.classValue_eq]
    · refine ClosedUnder.direct (fun y r c o hy hRep => hClosed y r c o hy ?_) hShort hFree
        hDirected fun r c o h => ?_
      · rw [← hAgrees.rep y]
        exact hRep
      · obtain ⟨y, hy, c', o', hRep⟩ :=
          exists_rep_of_mem_resolve table form (table.remaining_subset form (hOlder r c o h).2.2)
        exact hClosed y r c' o' (hVars y hy) hRep
    · exact (Forest.direct_other hne.symm rep).trans ((hAgrees.classes.root y).mpr hOld)
  · rw [hCase] at hUnify
    cases hUnify

/-- An equation is refused only when it fails under every consistent assignment. -/
theorem unify_error [Fact p.Prime] (hTable : table.WellFormed) {form : LinearForm p}
    (hForm : ∀ x ∈ form.terms.map Prod.snd, x < table.size) {policy : Unification}
    {label : Option String} {stop : Stop}
    (hUnify : table.unify form policy label = .error stop) :
    (∃ statement, stop = .fault (.unsatisfied label statement [])) ∧
      ∀ w, table.Consistent w → form.value w ≠ 0 := by
  rcases unify_cases hTable form policy label with
    hCase | ⟨hCase, -⟩ | ⟨statement, hCase, hNonzero⟩ | ⟨x, rep, hCase, -⟩ | ⟨-, r, hr, hFree⟩
  · rw [hCase] at hUnify
    cases hUnify
  · rw [hCase] at hUnify
    cases hUnify
  · rw [hCase] at hUnify
    cases hUnify
    refine ⟨⟨statement, rfl⟩, fun w hw => ?_⟩
    rw [← hw.classValue_eq, ← value_resolve]
    exact hNonzero w
  · rw [hCase] at hUnify
    cases hUnify
  · exact absurd (free_of_mem_resolve hTable hForm (table.remaining_subset form hr)).1 hFree

end ArithCircuit.VariableTable
