import ArithCircuit.Proofs.SolutionSet

/-! The order of equations. The solutions of a table determine its representatives: a variable is
pinned when all solutions agree on it, and otherwise represented by the oldest variable that
determines it. Without public inputs, equations between two variables are all absorbed or refused,
so that the order in which they come does not matter. -/
namespace ArithCircuit.VariableTable

variable {p : Nat} [Modulus p] {table other : VariableTable p}

/-- Absorb equations with their labels one after the other under the affine policy. The first
refusal ends the run. -/
def unifyAll : VariableTable p → List (LinearForm p × Option String) →
    Except Stop (VariableTable p)
  | table, [] => .ok table
  | table, (form, label) :: rest =>
    match table.unify form .affine label with
    | .error stop => .error stop
    | .ok _ => (table.afterUnify form .affine label).unifyAll rest

/-- The equation mentions at most two variables, whatever its number of terms. -/
def Binary (form : LinearForm p) : Prop :=
  (form.terms.map Prod.snd).toFinset.card ≤ 2

theorem classValue_single {x r : Nat} {c o : Residue p} (hRep : table.rep x = .var r c o)
    (k : Residue p) : table.classValue (Pi.single r k) x = c * k + o := by
  rw [classValue, hRep, Rep.value, Pi.single_eq_same]

/-- Outside the table, an assignment of the classes is the given one. -/
theorem classValue_single_of_size_le [Fact p.Prime] (hTable : table.WellFormed) {x : Nat}
    (hx : table.size ≤ x) (k : Residue p) :
    table.classValue (Pi.single x k) = table.classValue 0 + Pi.single x k := by
  funext y
  rw [Pi.add_apply, classValue, classValue]
  by_cases hy : y < table.size
  · have hne : y ≠ x := by omega
    rw [Pi.single_eq_of_ne hne, add_zero]
    cases hRep : table.rep y with
    | const value => rfl
    | var r c o =>
        have hOlder := (rep_var hTable hy hRep).1.lt_size hTable
        have hRoot : r ≠ x := by omega
        rw [Rep.value, Rep.value, Pi.single_eq_of_ne hRoot]
        rfl
  · rw [rep_of_le hTable (Nat.le_of_not_lt hy), Rep.value_ofVar, Rep.value_ofVar, Pi.zero_apply,
      zero_add]

theorem remaining_length_le (table : VariableTable p) (form : LinearForm p) :
    (table.remaining form).length ≤ (form.terms.map Prod.snd).toFinset.card := by
  have hOrigin (r : Nat) (hr : r ∈ (table.remaining form).toFinset) :
      ∃ x ∈ (form.terms.map Prod.snd).toFinset, ∃ c o, table.rep x = .var r c o := by
    obtain ⟨x, hx, hRep⟩ := exists_rep_of_mem_resolve table form
      (table.remaining_subset form (List.mem_toFinset.mp hr))
    exact ⟨x, List.mem_toFinset.mpr hx, hRep⟩
  choose! origin hMem hRep using hOrigin
  rw [← List.toFinset_card_of_nodup (table.remaining_nodup form)]
  apply Finset.card_le_card_of_injOn origin hMem
  intro r hr s hs hSame
  obtain ⟨c, o, hr⟩ := hRep r hr
  obtain ⟨d, e, hs⟩ := hRep s hs
  rw [hSame, hs] at hr
  exact (Rep.var.inj hr).1.symm

/-- Without public inputs, an equation between two variables is never left alone. -/
theorem unify_ne_none (hPrivate : table.publicCount = 0) {form : LinearForm p}
    (hBinary : Binary form) (label : Option String) :
    table.unify form .affine label ≠ .ok none := by
  rw [Ne, unify_affine_eq_none_iff]
  rintro (hMany | ⟨hSome, hPublic⟩)
  · have := (table.remaining_length_le form).trans hBinary
    omega
  · obtain ⟨r, hr⟩ := List.exists_mem_of_ne_nil _ hSome
    have := hPublic r hr
    simp [isPublic, hPrivate] at this

section Prime

variable [Fact p.Prime]

theorem rep_var_root (hTable : table.WellFormed) {x r : Nat} {c o : Residue p}
    (hRep : table.rep x = .var r c o) : table.rep r = .ofVar r ∧ r ≤ x ∧ c ≠ 0 := by
  by_cases hx : x < table.size
  · have hFind := (find_eq_rep hTable hx).trans (congrArg some hRep)
    obtain ⟨hRoot, hOlder, hNonzero⟩ := Forest.find_var hTable.classes hFind
    exact ⟨rep_of_free hRoot, hOlder, hNonzero⟩
  · have hSelf := rep_of_le hTable (Nat.le_of_not_lt hx)
    obtain ⟨rfl, rfl, -⟩ := Rep.var.inj (hRep.symm.trans hSelf)
    exact ⟨hSelf, le_rfl, one_ne_zero⟩

/-- A variable on which all solutions agree is pinned. -/
theorem rep_const_of_solutions (hTable : table.WellFormed) {x : Nat} {k : Residue p}
    (h : ∀ w ∈ table.solutions, w x = k) : table.rep x = .const k := by
  cases hRep : table.rep x with
  | const value =>
      have hValue := h _ (classValue_consistent hTable 0)
      rw [classValue, hRep] at hValue
      exact congrArg Rep.const hValue
  | var r c o =>
      have hZero := h _ (classValue_consistent hTable (Pi.single r 0))
      have hOne := h _ (classValue_consistent hTable (Pi.single r 1))
      rw [classValue_single hRep] at hZero hOne
      have hc : c = 0 := by linear_combination hOne - hZero
      exact absurd hc (rep_var_root hTable hRep).2.2

/-- Of two tables, the one with more solutions has the younger representatives: no solution of the
other one moves an older variable alone. -/
theorem root_le_of_solutions_subset (hOther : other.WellFormed)
    (hSolutions : other.solutions ⊆ table.solutions) {x r r' : Nat} {c c' o o' : Residue p}
    (hRep : table.rep x = .var r c o) (hRep' : other.rep x = .var r' c' o') : r' ≤ r := by
  by_contra hYounger
  have hFixed (k : Residue p) :
      other.classValue (Pi.single r' k) r = other.classValue (Pi.single r' 0) r := by
    rw [classValue, classValue]
    cases hRoot : other.rep r with
    | const value => rfl
    | var s d e =>
        have hne : s ≠ r' := by
          have := (rep_var_root hOther hRoot).2.1
          omega
        rw [Rep.value, Rep.value, Pi.single_eq_of_ne hne, Pi.single_eq_of_ne hne]
  have hMoves (k : Residue p) :
      c' * k + o' = c * other.classValue (Pi.single r' 0) r + o := by
    have hx := hSolutions (classValue_consistent hOther (Pi.single r' k)) x
    rw [hRep, Rep.value, classValue_single hRep', hFixed k] at hx
    exact hx
  have hc' : c' = 0 := by linear_combination hMoves 1 - hMoves 0
  exact (rep_var_root hOther hRep').2.2 hc'

/-- Tables with the same solutions have the same representatives. -/
theorem rep_eq_of_solutions_eq (hTable : table.WellFormed) (hOther : other.WellFormed)
    (hSolutions : table.solutions = other.solutions) (x : Nat) : table.rep x = other.rep x := by
  cases hRep : table.rep x with
  | const k =>
      refine (rep_const_of_solutions hOther fun w hw => ?_).symm
      rw [← hSolutions] at hw
      rw [hw x, hRep, Rep.value]
  | var r c o =>
      cases hRep' : other.rep x with
      | const k =>
          have hConst := rep_const_of_solutions hTable (x := x) (k := k) fun w hw => by
            rw [hSolutions] at hw
            rw [hw x, hRep', Rep.value]
          rw [hRep] at hConst
          cases hConst
      | var r' c' o' =>
          have hr : r = r' := le_antisymm
            (root_le_of_solutions_subset hTable hSolutions.subset hRep' hRep)
            (root_le_of_solutions_subset hOther hSolutions.superset hRep hRep')
          subst hr
          have hLine (k : Residue p) : c * k + o = c' * k + o' := by
            have hw := hSolutions.subset (classValue_consistent hTable (Pi.single r k)) x
            rw [hRep', Rep.value, classValue_single hRep,
              classValue_single (rep_var_root hTable hRep).1] at hw
            linear_combination hw
          have ho : o = o' := by linear_combination hLine 0
          have hc : c = c' := by linear_combination hLine 1 - hLine 0
          rw [hc, ho]

/-- A variable outside the table remains in an equation when it does not cancel there. -/
theorem mem_remaining_of_size_le (hTable : table.WellFormed) (form : LinearForm p) {x : Nat}
    (hx : table.size ≤ x) :
    x ∈ table.remaining form ↔ x ∈ form.normalize.terms.map Prod.snd := by
  have hGain (c : Residue p) :
      (c, x) ∈ (table.resolve form).normalize.terms ↔ (c, x) ∈ form.normalize.terms := by
    rw [LinearForm.mem_normalize_iff, LinearForm.mem_normalize_iff, value_resolve, value_resolve,
      classValue_single_of_size_le hTable hx]
    simp only [LinearForm.value_eq, LinearForm.sumAt_add, LinearForm.sumAt_zero]
    refine and_congr_right fun _ => ⟨fun h => ?_, fun h => ?_⟩
    · linear_combination h
    · linear_combination h
  rw [remaining]
  simp only [List.mem_map, Prod.exists, exists_eq_right, hGain]

theorem free_of_mem_remaining (hTable : table.WellFormed) {form : LinearForm p} {r : Nat}
    (hr : r ∈ table.remaining form) (hLess : r < table.size) : table.Free r := by
  obtain ⟨x, hx, c, o, hRep⟩ :=
    exists_rep_of_mem_resolve table form (table.remaining_subset form hr)
  by_cases hInside : x < table.size
  · exact (rep_var hTable hInside hRep).1
  · rw [rep_of_le hTable (Nat.le_of_not_lt hInside)] at hRep
    exact absurd ((Rep.var.inj hRep).1 ▸ hLess) hInside

/-- What remains in an equation that is absorbed belongs to the table. -/
theorem lt_size_of_mem_remaining (hTable : table.WellFormed) {form : LinearForm p}
    {policy : Unification} {label : Option String} {next : VariableTable p}
    (hUnify : table.unify form policy label = .ok (some next)) {r : Nat}
    (hr : r ∈ table.remaining form) : r < table.size := by
  rcases unify_cases hTable form policy label with
    hCase | ⟨-, hZero⟩ | ⟨statement, hCase, -⟩ | ⟨x, rep, -, hFree, -⟩ | ⟨hCase, -⟩
  · rw [hCase] at hUnify
    cases hUnify
  · obtain ⟨k, k', -, hNonzero⟩ := exists_values_of_mem_remaining hr
    rw [← value_resolve] at hNonzero
    exact absurd (hZero _) hNonzero
  · rw [hCase] at hUnify
    cases hUnify
  · exact (hFree r hr).lt_size hTable
  · rw [hCase] at hUnify
    cases hUnify

/-- Without public inputs, an equation between two variables is absorbed iff its variables are in
the table and some solution satisfies it. -/
theorem unify_eq_some_iff (hTable : table.WellFormed) (hPrivate : table.publicCount = 0)
    {form : LinearForm p} (hBinary : Binary form) (label : Option String) :
    (∃ next, table.unify form .affine label = .ok (some next)) ↔
      (∀ x ∈ form.normalize.terms.map Prod.snd, x < table.size) ∧
        (table.solutions ∩ zeros form).Nonempty := by
  constructor
  · rintro ⟨next, hUnify⟩
    refine ⟨fun x hx => ?_, ?_⟩
    · by_contra hOutside
      have hRemains := (mem_remaining_of_size_le hTable form (Nat.le_of_not_lt hOutside)).mpr hx
      exact hOutside (lt_size_of_mem_remaining hTable hUnify hRemains)
    · rw [← unify_solutions hTable hUnify]
      exact solutions_nonempty (unify_some hTable hUnify).wellFormed
  · rintro ⟨hAllocated, w, hw, hZero⟩
    rcases unify_cases hTable form .affine label with
      hNone | ⟨hSome, -⟩ | ⟨statement, -, hNever⟩ | ⟨x, rep, hSome, -⟩ | ⟨-, r, hr, hFree⟩
    · exact absurd hNone (unify_ne_none hPrivate hBinary label)
    · exact ⟨_, hSome⟩
    · apply absurd hZero
      show form.value w ≠ 0
      rw [← value_resolve_of_mem hw, LinearForm.value_normalize]
      exact hNever w
    · exact ⟨_, hSome⟩
    · refine absurd (free_of_mem_remaining hTable hr ?_) hFree
      by_contra hOutside
      have hMentioned :=
        (mem_remaining_of_size_le hTable form (Nat.le_of_not_lt hOutside)).mp hr
      exact hOutside (hAllocated r hMentioned)

/-- An assignment solves all equations of a list. -/
def SolvesAll (equations : List (LinearForm p × Option String)) (w : Nat → Residue p) : Prop :=
  ∀ equation ∈ equations, w ∈ zeros equation.1

/-- The equations mention variables of the table only, apart from those that cancel. -/
def AllKnown (table : VariableTable p) (equations : List (LinearForm p × Option String)) : Prop :=
  ∀ equation ∈ equations, ∀ x ∈ equation.1.normalize.terms.map Prod.snd, x < table.size

omit [Fact p.Prime] in
theorem unifyAll_of_some {form : LinearForm p} {label : Option String} {next : VariableTable p}
    (hUnify : table.unify form .affine label = .ok (some next))
    (rest : List (LinearForm p × Option String)) :
    table.unifyAll ((form, label) :: rest) = next.unifyAll rest := by
  rw [unifyAll, hUnify, afterUnify_of_some hUnify]

omit [Fact p.Prime] in
theorem unifyAll_of_error {form : LinearForm p} {label : Option String} {stop : Stop}
    (hUnify : table.unify form .affine label = .error stop)
    (rest : List (LinearForm p × Option String)) :
    table.unifyAll ((form, label) :: rest) = .error stop := by
  rw [unifyAll, hUnify]

/-- A run without refusals ends with the common solutions of the equations. -/
theorem unifyAll_solutions (hTable : table.WellFormed) (hPrivate : table.publicCount = 0)
    {equations : List (LinearForm p × Option String)} (hBinary : ∀ e ∈ equations, Binary e.1)
    {final : VariableTable p} (hRun : table.unifyAll equations = .ok final) :
    final.WellFormed ∧
      final.solutions = {w | w ∈ table.solutions ∧ SolvesAll equations w} := by
  induction equations generalizing table with
  | nil =>
      cases hRun
      refine ⟨hTable, ?_⟩
      simp [SolvesAll]
  | cons equation rest ih =>
      obtain ⟨form, label⟩ := equation
      obtain ⟨hFirst, hRest⟩ := List.forall_mem_cons.mp hBinary
      rcases hUnify : table.unify form .affine label with stop | _ | next
      · rw [unifyAll_of_error hUnify] at hRun
        cases hRun
      · exact absurd hUnify (unify_ne_none hPrivate hFirst label)
      · have hNext := unify_some hTable hUnify
        rw [unifyAll_of_some hUnify] at hRun
        obtain ⟨hFinal, hSolutions⟩ :=
          ih hNext.wellFormed (hNext.publicCount.trans hPrivate) hRest hRun
        refine ⟨hFinal, ?_⟩
        rw [hSolutions, unify_solutions hTable hUnify]
        simp only [SolvesAll, List.forall_mem_cons, Set.mem_inter_iff, and_assoc]

/-- A run has no refusal iff its variables are known and the equations have a common solution. -/
theorem unifyAll_ok_iff (hTable : table.WellFormed) (hPrivate : table.publicCount = 0)
    {equations : List (LinearForm p × Option String)} (hBinary : ∀ e ∈ equations, Binary e.1) :
    (∃ final, table.unifyAll equations = .ok final) ↔
      AllKnown table equations ∧ ∃ w ∈ table.solutions, SolvesAll equations w := by
  induction equations generalizing table with
  | nil =>
      obtain ⟨w, hw⟩ := solutions_nonempty hTable
      constructor
      · intro _
        exact ⟨List.forall_mem_nil _, w, hw, List.forall_mem_nil _⟩
      · intro _
        exact ⟨table, rfl⟩
  | cons equation rest ih =>
      obtain ⟨form, label⟩ := equation
      obtain ⟨hFirst, hRest⟩ := List.forall_mem_cons.mp hBinary
      have hAbsorbed := unify_eq_some_iff hTable hPrivate hFirst label
      simp only [AllKnown, SolvesAll, List.forall_mem_cons]
      rcases hUnify : table.unify form .affine label with stop | _ | next
      · rw [hUnify] at hAbsorbed
        rw [unifyAll_of_error hUnify]
        constructor
        · rintro ⟨final, hFinal⟩
          cases hFinal
        · rintro ⟨⟨hKnown, -⟩, w, hw, hZero, -⟩
          obtain ⟨next, hNext⟩ := hAbsorbed.mpr ⟨hKnown, w, hw, hZero⟩
          cases hNext
      · exact absurd hUnify (unify_ne_none hPrivate hFirst label)
      · have hNext := unify_some hTable hUnify
        have hSize : next.size = table.size := congrArg Array.size hNext.values
        obtain ⟨hKnown, -⟩ := hAbsorbed.mp ⟨next, hUnify⟩
        rw [unifyAll_of_some hUnify, ih hNext.wellFormed (hNext.publicCount.trans hPrivate) hRest,
          unify_solutions hTable hUnify]
        simp only [AllKnown, SolvesAll, hSize, Set.mem_inter_iff, and_assoc]
        exact (and_iff_right hKnown).symm

/-- Over variables of the table, a run ends with a refusal and never breaks the rules. -/
theorem unifyAll_ne_abort (hTable : table.WellFormed)
    {equations : List (LinearForm p × Option String)}
    (hVars : ∀ e ∈ equations, ∀ x ∈ e.1.terms.map Prod.snd, x < table.size) :
    table.unifyAll equations ≠ .error .abort := by
  induction equations generalizing table with
  | nil => simp [unifyAll]
  | cons equation rest ih =>
      obtain ⟨form, label⟩ := equation
      obtain ⟨hFirst, hRest⟩ := List.forall_mem_cons.mp hVars
      rw [unifyAll]
      rcases hUnify : table.unify form .affine label with stop | answer
      · obtain ⟨⟨statement, rfl⟩, -⟩ := unify_error hTable hFirst hUnify
        simp
      · obtain ⟨hNext, hSize, -⟩ := afterUnify_step hTable form .affine label
        apply ih hNext
        rw [hSize]
        exact hRest

/-- The order of equations does not matter. Without public inputs, equations between at most two
variables are all absorbed in one order iff they are in any other, and then every variable has the
same representative. -/
theorem unifyAll_perm (hTable : Evolves empty table) (hPrivate : table.publicCount = 0)
    {equations others : List (LinearForm p × Option String)}
    (hBinary : ∀ e ∈ equations, Binary e.1) (hPerm : equations.Perm others) :
    (∃ stop stop', table.unifyAll equations = .error stop ∧
      table.unifyAll others = .error stop' ∧
      ((∀ e ∈ equations, ∀ x ∈ e.1.terms.map Prod.snd, x < table.size) →
        stop ≠ .abort ∧ stop' ≠ .abort)) ∨
    ∃ final final', table.unifyAll equations = .ok final ∧ table.unifyAll others = .ok final' ∧
      ∀ x, final.rep x = final'.rep x := by
  have hWellFormed := hTable.wellFormed
  have hBinary' : ∀ e ∈ others, Binary e.1 := fun e he => hBinary e (hPerm.mem_iff.mpr he)
  have hSame : (∃ final, table.unifyAll equations = .ok final) ↔
      ∃ final, table.unifyAll others = .ok final := by
    rw [unifyAll_ok_iff hWellFormed hPrivate hBinary, unifyAll_ok_iff hWellFormed hPrivate hBinary']
    simp only [AllKnown, SolvesAll, hPerm.mem_iff]
  rcases hRun : table.unifyAll equations with stop | final
  · rcases hRun' : table.unifyAll others with stop' | final'
    · refine .inl ⟨stop, stop', rfl, rfl, fun hVars => ⟨?_, ?_⟩⟩
      · rintro rfl
        exact unifyAll_ne_abort hWellFormed hVars hRun
      · rintro rfl
        exact unifyAll_ne_abort hWellFormed (fun e he => hVars e (hPerm.mem_iff.mpr he)) hRun'
    · obtain ⟨final, hFinal⟩ := hSame.mpr ⟨final', hRun'⟩
      rw [hRun] at hFinal
      cases hFinal
  · obtain ⟨final', hRun'⟩ := hSame.mp ⟨final, hRun⟩
    obtain ⟨hFinal, hSolutions⟩ := unifyAll_solutions hWellFormed hPrivate hBinary hRun
    obtain ⟨hFinal', hSolutions'⟩ := unifyAll_solutions hWellFormed hPrivate hBinary' hRun'
    refine .inr ⟨final, final', rfl, hRun', rep_eq_of_solutions_eq hFinal hFinal' ?_⟩
    rw [hSolutions, hSolutions']
    simp only [SolvesAll, hPerm.mem_iff]

/-- A chain of equations from its end: the variables are linked to each other first and to the
oldest one last. -/
theorem unifyAll_perm_chain :
    let table : VariableTable 7 := allocated [] [none, none, none]
    let equations : List (LinearForm 7 × Option String) :=
      [(⟨[(1, 0), (-1, 1)], 1⟩, none), (⟨[(1, 1), (1, 2), (1, 1)], 0⟩, some "last")]
    ∃ final final', table.unifyAll equations = .ok final ∧
      table.unifyAll equations.reverse = .ok final' ∧ final.rep 2 = .var 0 (-(1 + 1)) (-(1 + 1)) ∧
      ∀ x, final.rep x = final'.rep x := by
  intro table equations
  have : Fact (Nat.Prime 7) := ⟨by decide⟩
  have hTable : Evolves empty table := .alloc (.alloc (.alloc (.refl empty) none) none) none
  have hBinary : ∀ e ∈ equations, Binary e.1 := by
    simp [equations, Binary]
  have hAnswer : (table.unifyAll equations).toOption.map (·.rep 2) =
      some (.var 0 (-(1 + 1)) (-(1 + 1))) := by decide +kernel
  rcases unifyAll_perm hTable rfl hBinary equations.reverse_perm.symm with
    ⟨stop, stop', hRun, -⟩ | ⟨final, final', hRun, hRun', hRep⟩
  · rw [hRun] at hAnswer
    cases hAnswer
  · rw [hRun] at hAnswer
    exact ⟨final, final', hRun, hRun', Option.some.inj hAnswer, hRep⟩

end Prime

end ArithCircuit.VariableTable
