import ArithCircuit.Proofs.Forest
import ArithCircuit.Proofs.LinearForm
import ArithCircuit.VariableTable

/-! Tables of variables and the assignments that agree with their classes. Every choice of values
for the free representatives extends to one such assignment, and rewriting a form over
representatives keeps its value there. -/
namespace ArithCircuit.VariableTable

variable {p : Nat} [Modulus p]

/-- The variable represents its own class, which is not pinned. -/
def Free (table : VariableTable p) (x : Nat) : Prop := table.classes.nodes[x]? = some .root

/-- Classes cover exactly the variables of the table, and public inputs are free. -/
structure WellFormed (table : VariableTable p) : Prop where
  classes : table.classes.WellFormed
  sized : table.classes.size = table.size
  publicCount_le : table.publicCount ≤ table.size
  public_free : ∀ i < table.publicCount, table.Free i

/-- Every variable has the value that its representative gives it. -/
def Consistent (table : VariableTable p) (w : Nat → Residue p) : Prop :=
  ∀ x, w x = (table.rep x).value w

/-- The assignment determined by the values of free representatives. What `u` says about other
variables is not used. -/
def classValue (table : VariableTable p) (u : Nat → Residue p) (x : Nat) : Residue p :=
  (table.rep x).value u

/-- The representatives of a set of variables belong to the set. -/
def ClosedUnder (table : VariableTable p) (known : Nat → Prop) : Prop :=
  ∀ x r c o, known x → table.rep x = .var r c o → known r

variable {table : VariableTable p}

theorem rep_of_find {x : Nat} {found : Rep p} (h : table.classes.find x = some found) :
    table.rep x = found := by
  simp [rep, h]

theorem rep_of_free {x : Nat} (h : table.Free x) :
    table.rep x = .ofVar x :=
  rep_of_find (Forest.find_of_root h)

theorem rep_of_le (hTable : table.WellFormed) {x : Nat} (hx : table.size ≤ x) :
    table.rep x = .ofVar x := by
  have hFind := Forest.find_of_le (hTable.sized ▸ hx : table.classes.size ≤ x)
  simp [rep, hFind]

theorem find_eq_rep (hTable : table.WellFormed) {x : Nat} (hx : x < table.size) :
    table.classes.find x = some (table.rep x) := by
  obtain ⟨rep, hRep⟩ := Forest.exists_find hTable.classes (hTable.sized ▸ hx)
  rw [rep_of_find hRep, hRep]

theorem Free.lt_size (hTable : table.WellFormed) {x : Nat} (h : table.Free x) : x < table.size :=
  hTable.sized ▸ (Array.getElem?_eq_some_iff.mp h).1

/-- The representative of a variable of the table is free, and the relation to it invertible. -/
theorem rep_var [Fact p.Prime] (hTable : table.WellFormed) {x r : Nat} {c o : Residue p}
    (hx : x < table.size) (hRep : table.rep x = .var r c o) :
    table.Free r ∧ c ≠ 0 := by
  have hFind := (find_eq_rep hTable hx).trans (congrArg some hRep)
  obtain ⟨hRoot, -, hNonzero⟩ := Forest.find_var hTable.classes hFind
  exact ⟨hRoot, hNonzero⟩

theorem consistent_iff_holds (hTable : table.WellFormed) (w : Nat → Residue p) :
    table.Consistent w ↔ table.classes.Holds w := by
  rw [Forest.holds_iff_find hTable.classes]
  constructor
  · intro hConsistent x rep hFind
    rw [hConsistent x, rep_of_find hFind]
  · intro hAnswers x
    by_cases hx : x < table.size
    · exact hAnswers x _ (find_eq_rep hTable hx)
    · rw [rep_of_le hTable (Nat.le_of_not_lt hx), Rep.value_ofVar]

theorem Consistent.classValue_eq {w : Nat → Residue p} (hConsistent : table.Consistent w) :
    table.classValue w = w :=
  funext fun x => (hConsistent x).symm

theorem classValue_of_free {u : Nat → Residue p} {x : Nat}
    (h : table.Free x) : table.classValue u x = u x := by
  rw [classValue, rep_of_free h, Rep.value_ofVar]

/-- Whatever the representatives are worth, there is a consistent assignment with these values. -/
theorem classValue_consistent [Fact p.Prime] (hTable : table.WellFormed) (u : Nat → Residue p) :
    table.Consistent (table.classValue u) := by
  intro x
  by_cases hx : x < table.size
  · cases hRep : table.rep x with
    | const k => simp [classValue, hRep, Rep.value]
    | var r c o =>
        have hFree := (rep_var hTable hx hRep).1
        simp only [Rep.value, classValue_of_free hFree]
        simp [classValue, hRep, Rep.value]
  · rw [rep_of_le hTable (Nat.le_of_not_lt hx), Rep.value_ofVar]

/-- Rewriting a form over representatives. -/
theorem value_resolve (table : VariableTable p) (u : Nat → Residue p) (form : LinearForm p) :
    (table.resolve form).value u = form.value (table.classValue u) := by
  have hTerms (terms : List (Residue p × Nat)) (rest : LinearForm p) :
      (table.resolveBefore terms rest).value u =
        LinearForm.sumAt (table.classValue u) terms + rest.value u := by
    induction terms with
    | nil => simp [resolveBefore]
    | cons term terms ih =>
        rw [LinearForm.value_eq] at ih
        rw [resolveBefore, List.foldr_cons, ← resolveBefore, LinearForm.value_eq]
        cases hRep : table.rep term.2 with
        | var r c o =>
            simp only [LinearForm.sumAt_cons, classValue, hRep, Rep.value]
            linear_combination ih
        | const k =>
            simp only [LinearForm.sumAt_cons, classValue, hRep, Rep.value]
            linear_combination ih
  rw [resolve, hTerms, LinearForm.value_eq _ form]
  rfl

theorem value_resolveAs (table : VariableTable p) (u : Nat → Residue p) (form : LinearForm p)
    (normalize : Bool) :
    (table.resolveAs form normalize).value u = form.value (table.classValue u) := by
  rw [resolveAs]
  split_ifs
  · rw [LinearForm.value_normalize, value_resolve]
  · exact value_resolve table u form

/-- A resolved form mentions only representatives of the variables of the form. -/
theorem exists_rep_of_mem_resolve (table : VariableTable p) (form : LinearForm p) {r : Nat}
    (hr : r ∈ (table.resolve form).terms.map Prod.snd) :
    ∃ x ∈ form.terms.map Prod.snd, ∃ c o, table.rep x = .var r c o := by
  obtain ⟨terms, constant⟩ := form
  have hTerms (terms : List (Residue p × Nat)) :
      r ∈ (table.resolveBefore terms (.ofConstant constant)).terms.map Prod.snd →
        ∃ x ∈ terms.map Prod.snd, ∃ c o, table.rep x = .var r c o := by
    induction terms with
    | nil => simp [resolveBefore, LinearForm.ofConstant]
    | cons term terms ih =>
        rw [resolveBefore, List.foldr_cons, ← resolveBefore]
        intro hr
        cases hRep : table.rep term.2 with
        | var index c o =>
            simp only [hRep, List.map_cons, List.mem_cons] at hr
            rcases hr with rfl | hr
            · exact ⟨term.2, by simp, c, o, hRep⟩
            · obtain ⟨x, hx, hVar⟩ := ih hr
              exact ⟨x, List.mem_cons_of_mem _ hx, hVar⟩
        | const k =>
            simp only [hRep] at hr
            obtain ⟨x, hx, hVar⟩ := ih hr
            exact ⟨x, List.mem_cons_of_mem _ hx, hVar⟩
  exact hTerms terms hr

theorem exists_rep_of_mem_resolveAs (table : VariableTable p) (form : LinearForm p)
    (normalize : Bool) {r : Nat}
    (hr : r ∈ (table.resolveAs form normalize).terms.map Prod.snd) :
    ∃ x ∈ form.terms.map Prod.snd, ∃ c o, table.rep x = .var r c o := by
  rw [resolveAs] at hr
  split_ifs at hr
  · exact exists_rep_of_mem_resolve table form (LinearForm.normalize_vars _ hr)
  · exact exists_rep_of_mem_resolve table form hr

/-- Two tables with the same variables whose classes answer alike. -/
structure Agrees (before after : VariableTable p) : Prop where
  classes : before.classes.Agrees after.classes
  values : after.values = before.values
  publicCount : after.publicCount = before.publicCount

theorem Agrees.wellFormed {before after : VariableTable p} (h : before.Agrees after)
    (hBefore : before.WellFormed) : after.WellFormed where
  classes := h.classes.wellFormed
  sized := by rw [h.classes.size, hBefore.sized, size, size, h.values]
  publicCount_le := by
    rw [h.publicCount, size, h.values]
    exact hBefore.publicCount_le
  public_free i hi := (h.classes.root i).mpr (hBefore.public_free i (h.publicCount ▸ hi))

theorem Agrees.rep {before after : VariableTable p} (h : before.Agrees after) (x : Nat) :
    after.rep x = before.rep x := by
  rw [VariableTable.rep, VariableTable.rep, h.classes.find]

/-- Shortening paths does not change what any variable is worth. -/
theorem compress_agrees [Fact p.Prime] (hTable : table.WellFormed) (form : LinearForm p) :
    table.Agrees (table.compress form) := by
  have hTerms (terms : List (Residue p × Nat)) (classes : Forest p)
      (hClasses : classes.WellFormed) :
      classes.Agrees (terms.foldl (fun classes term => classes.compress term.2) classes) := by
    induction terms generalizing classes with
    | nil => exact Forest.Agrees.refl hClasses
    | cons term terms ih =>
        have hFirst := Forest.compress_agrees hClasses term.2
        exact hFirst.trans (ih _ hFirst.wellFormed)
  exact ⟨hTerms form.terms table.classes hTable.classes, rfl, rfl⟩

/-- A table with one more variable, which is free. -/
structure Grows (before after : VariableTable p) : Prop where
  classes : after.classes = before.classes.push
  size : after.size = before.size + 1

omit [Modulus p] in
theorem alloc_grows (table : VariableTable p) (value : Option (Residue p)) :
    table.Grows (table.alloc value) :=
  ⟨rfl, Array.size_push value⟩

omit [Modulus p] in
theorem allocPublic_grows (table : VariableTable p) (value : Option (Residue p)) :
    table.Grows (table.allocPublic value) :=
  ⟨rfl, Array.size_push value⟩

/-- A new variable represents itself, as it did while it was missing. -/
theorem Grows.rep {before after : VariableTable p} (h : before.Grows after)
    (hBefore : before.WellFormed) (x : Nat) : after.rep x = before.rep x := by
  rw [VariableTable.rep, VariableTable.rep, h.classes]
  by_cases hx : x < before.classes.size
  · rw [Forest.find_push hBefore.classes hx]
  · rw [Forest.find_of_le (Nat.le_of_not_lt hx)]
    by_cases hNew : x = before.classes.size
    · rw [hNew, Forest.find_of_root Forest.push_new]
      rfl
    · have hBeyond : before.classes.push.size ≤ x := by
        simp only [Forest.size, Forest.push, Array.size_push] at hx hNew ⊢
        omega
      rw [Forest.find_of_le hBeyond]

omit [Modulus p] in
theorem Grows.free {before after : VariableTable p} (h : before.Grows after) {x : Nat}
    (hx : before.Free x) : after.Free x := by
  have hLess : x < before.classes.size := (Array.getElem?_eq_some_iff.mp hx).1
  rw [Free, h.classes, Forest.push_node hLess]
  exact hx

theorem Grows.new_free {before after : VariableTable p} (h : before.Grows after)
    (hBefore : before.WellFormed) : after.Free before.size := by
  rw [Free, h.classes, ← hBefore.sized]
  exact Forest.push_new

theorem alloc_wellFormed (hTable : table.WellFormed) (value : Option (Residue p)) :
    (table.alloc value).WellFormed where
  classes := Forest.push_wellFormed hTable.classes
  sized := by
    rw [(alloc_grows table value).size, ← hTable.sized]
    exact Array.size_push _
  publicCount_le := by
    rw [(alloc_grows table value).size]
    exact hTable.publicCount_le.trans (Nat.le_succ _)
  public_free i hi := (alloc_grows table value).free (hTable.public_free i hi)

/-- Public inputs are allocated while there are no other variables. -/
theorem allocPublic_wellFormed (hTable : table.WellFormed)
    (hPublic : table.size = table.publicCount) (value : Option (Residue p)) :
    (table.allocPublic value).WellFormed where
  classes := Forest.push_wellFormed hTable.classes
  sized := by
    rw [(allocPublic_grows table value).size, ← hTable.sized]
    exact Array.size_push _
  publicCount_le := by
    rw [(allocPublic_grows table value).size, hPublic]
    exact Nat.le_refl _
  public_free i hi := by
    have hGrows := allocPublic_grows table value
    have hBound : i < table.publicCount + 1 := hi
    rcases Nat.lt_succ_iff_lt_or_eq.mp hBound with hOld | hNew
    · exact hGrows.free (hTable.public_free i hOld)
    · rw [hNew, ← hPublic]
      exact hGrows.new_free hTable

theorem empty_wellFormed : (empty : VariableTable p).WellFormed where
  classes x parent coeff offset hNode := by simp [empty, Forest.empty] at hNode
  sized := rfl
  publicCount_le := Nat.le_refl _
  public_free i hi := by cases hi

/-- Public inputs with the given values, where they are known, and then other variables. -/
def allocated (publics privates : List (Option (Residue p))) : VariableTable p :=
  privates.foldl alloc (publics.foldl allocPublic empty)

/-- A table whose variables have been allocated and not yet related. -/
structure Unrelated (table : VariableTable p) : Prop where
  wellFormed : table.WellFormed
  free : ∀ x < table.size, table.Free x

theorem Grows.unrelated {before after : VariableTable p} (h : before.Grows after)
    (hBefore : before.Unrelated) (hAfter : after.WellFormed) : after.Unrelated := by
  refine ⟨hAfter, fun x hx => ?_⟩
  rw [h.size] at hx
  rcases Nat.lt_succ_iff_lt_or_eq.mp hx with hOld | hNew
  · exact h.free (hBefore.free x hOld)
  · rw [hNew]
    exact h.new_free hBefore.wellFormed

theorem Unrelated.rep_eq (h : table.Unrelated) (x : Nat) : table.rep x = .ofVar x := by
  by_cases hx : x < table.size
  · exact rep_of_free (h.free x hx)
  · exact rep_of_le h.wellFormed (Nat.le_of_not_lt hx)

theorem allocated_unrelated (publics privates : List (Option (Residue p))) :
    (allocated publics privates).Unrelated ∧
      (allocated publics privates).size = publics.length + privates.length ∧
      (allocated publics privates).publicCount = publics.length := by
  have hPublics (table : VariableTable p) (hTable : table.Unrelated)
      (hPublic : table.size = table.publicCount) :
      (publics.foldl allocPublic table).Unrelated ∧
        (publics.foldl allocPublic table).size = table.size + publics.length ∧
        (publics.foldl allocPublic table).publicCount = table.size + publics.length := by
    induction publics generalizing table with
    | nil => exact ⟨hTable, rfl, hPublic.symm⟩
    | cons value rest ih =>
        have hGrows := allocPublic_grows table value
        have hNext := hGrows.unrelated hTable
          (allocPublic_wellFormed hTable.wellFormed hPublic value)
        obtain ⟨hFinal, hSize, hCount⟩ := ih (table.allocPublic value) hNext
          (hGrows.size.trans (congrArg (· + 1) hPublic))
        rw [hGrows.size] at hSize hCount
        rw [List.foldl_cons, List.length_cons]
        exact ⟨hFinal, by omega, by omega⟩
  have hPrivates (table : VariableTable p) (hTable : table.Unrelated) :
      (privates.foldl alloc table).Unrelated ∧
        (privates.foldl alloc table).size = table.size + privates.length ∧
        (privates.foldl alloc table).publicCount = table.publicCount := by
    induction privates generalizing table with
    | nil => exact ⟨hTable, rfl, rfl⟩
    | cons value rest ih =>
        have hGrows := alloc_grows table value
        obtain ⟨hFinal, hSize, hCount⟩ := ih (table.alloc value)
          (hGrows.unrelated hTable (alloc_wellFormed hTable.wellFormed value))
        rw [hGrows.size] at hSize
        rw [List.foldl_cons, List.length_cons]
        exact ⟨hFinal, by omega, hCount⟩
  obtain ⟨hFirst, hFirstSize, hFirstCount⟩ :=
    hPublics empty ⟨empty_wellFormed, fun x hx => absurd hx (Nat.not_lt_zero x)⟩ rfl
  obtain ⟨hFinal, hSize, hCount⟩ := hPrivates _ hFirst
  have hEmpty : (empty : VariableTable p).size = 0 := rfl
  exact ⟨hFinal, by unfold allocated; omega, by unfold allocated; omega⟩

end ArithCircuit.VariableTable
