import ArithCircuit.LinearForm
import ArithCircuit.Proofs.Residue
import Mathlib.Algebra.BigOperators.Group.List.Basic
import Mathlib.Tactic.LinearCombination

/-! What expressions and linear forms are worth under a total assignment. Flattening, subtraction,
scaling and normalization keep the value, and a normal form is sorted without zero coefficients. The
terms of a normal form can be read off the values of the form, so the normal form is unique. -/
namespace ArithCircuit

namespace Expr

variable {p : Nat}

/-- The variables of an expression, from left to right and with repetitions. A variable below a
factor zero counts. -/
def vars : Expr p → List Nat
  | .const _ => []
  | .var index => [index]
  | .add left right => left.vars ++ right.vars
  | .scale _ body => body.vars

/-- Evaluation succeeds when every variable of the expression can be read. -/
theorem eval_eq_value {ε : Type} {read : Nat → Except ε (Residue p)} {w : Nat → Residue p}
    (e : Expr p) (hRead : ∀ i ∈ e.vars, read i = .ok (w i)) :
    e.eval read = .ok (e.value w) := by
  induction e with
  | const value => rfl
  | var index => exact hRead index (List.mem_singleton_self index)
  | add left right ihLeft ihRight =>
      have hLeft := ihLeft fun i hi => hRead i (List.mem_append_left _ hi)
      have hRight := ihRight fun i hi => hRead i (List.mem_append_right _ hi)
      simp only [eval, hLeft, hRight, value]
  | scale factor body ih =>
      have hBody := ih hRead
      simp only [eval, hBody, value]

/-- Evaluation reads every variable, so a value is only returned when all of them have one. -/
theorem exists_read_of_eval {ε : Type} {read : Nat → Except ε (Residue p)} {e : Expr p}
    {x : Residue p} (hEval : e.eval read = .ok x) {i : Nat} (hi : i ∈ e.vars) :
    ∃ y, read i = .ok y := by
  induction e generalizing x with
  | const value => cases hi
  | var index =>
      rw [List.mem_singleton.mp hi]
      exact ⟨x, hEval⟩
  | add left right ihLeft ihRight =>
      simp only [eval] at hEval
      split at hEval
      · cases hEval
      · rename_i y hLeft
        split at hEval
        · cases hEval
        · rename_i z hRight
          rcases List.mem_append.mp hi with hi | hi
          · exact ihLeft hLeft hi
          · exact ihRight hRight hi
  | scale factor body ih =>
      simp only [eval] at hEval
      split at hEval
      · cases hEval
      · rename_i y hBody
        exact ih hBody hi

theorem termsBefore_vars (k : Residue p) (e : Expr p) (rest : List (Residue p × Nat)) :
    (e.termsBefore k rest).map Prod.snd = e.vars ++ rest.map Prod.snd := by
  induction e generalizing k rest with
  | const value => rfl
  | var index => rfl
  | add left right ihLeft ihRight =>
      simp only [termsBefore, ihLeft, ihRight, vars, List.append_assoc]
  | scale factor body ih => exact ih (k * factor) rest

variable [Modulus p]

@[simp] theorem value_zero (w : Nat → Residue p) : (0 : Expr p).value w = 0 := rfl

theorem value_scaleBy (w : Nat → Residue p) (e : Expr p) (k : Residue p) :
    (e.scaleBy k).value w = k * e.value w := by
  unfold scaleBy
  split_ifs with hZero hOne
  · simp [value, hZero]
  · simp [hOne]
  · cases e with
    | const value => exact mul_comm _ _
    | var index => rfl
    | add left right => rfl
    | scale factor body =>
        by_cases hCancel : factor * k = 1
        · simp only [if_pos hCancel, value]
          linear_combination (-body.value w) * hCancel
        · simp only [if_neg hCancel, value]
          ring

theorem vars_scaleBy_sublist (e : Expr p) (k : Residue p) : (e.scaleBy k).vars.Sublist e.vars := by
  unfold scaleBy
  split_ifs with hZero hOne
  · exact List.nil_sublist _
  · exact List.Sublist.refl _
  · cases e with
    | const value => exact List.Sublist.refl _
    | var index => exact List.Sublist.refl _
    | add left right => exact List.Sublist.refl _
    | scale factor body =>
        by_cases hCancel : factor * k = 1
        · simp only [if_pos hCancel]
          exact List.Sublist.refl _
        · simp only [if_neg hCancel]
          exact List.Sublist.refl _

@[simp] theorem value_one (w : Nat → Residue p) : (1 : Expr p).value w = 1 := rfl

theorem value_add (w : Nat → Residue p) (a b : Expr p) :
    (a + b).value w = a.value w + b.value w := by
  change (plus a b).value w = _
  unfold plus
  split_ifs with ha hb
  · simp [ha, value]
  · simp [hb, value]
  · split <;> rfl

theorem value_sub (w : Nat → Residue p) (a b : Expr p) :
    (a - b).value w = a.value w - b.value w := by
  change (minus a b).value w = _
  unfold minus
  split
  · rfl
  · rw [value_add, value_scaleBy]
    ring

theorem vars_add_subset (a b : Expr p) : (a + b).vars ⊆ a.vars ++ b.vars := by
  change (plus a b).vars ⊆ _
  unfold plus
  split_ifs
  · exact List.subset_append_right _ _
  · exact List.subset_append_left _ _
  · split
    · exact List.nil_subset _
    · exact List.Subset.refl _

theorem vars_sub_subset (a b : Expr p) : (a - b).vars ⊆ a.vars ++ b.vars := by
  change (minus a b).vars ⊆ _
  unfold minus
  split
  · exact List.nil_subset _
  · refine List.Subset.trans (vars_add_subset _ _) (List.append_subset.mpr ⟨?_, ?_⟩)
    · exact List.subset_append_left _ _
    · exact List.Subset.trans (vars_scaleBy_sublist _ _).subset (List.subset_append_right _ _)

/-- Flattening lists the variables of the expression in order. -/
@[simp] theorem linear_vars (e : Expr p) : e.linear.terms.map Prod.snd = e.vars := by
  simp [linear, termsBefore_vars]

end Expr

namespace LinearForm

variable {p : Nat} [Modulus p]

/-- The sum of scaled variables under an assignment. -/
def sumAt (w : Nat → Residue p) (terms : List (Residue p × Nat)) : Residue p :=
  (terms.map fun term => term.1 * w term.2).sum

@[simp] theorem sumAt_nil (w : Nat → Residue p) : sumAt w [] = 0 := rfl

@[simp] theorem sumAt_cons (w : Nat → Residue p) (term : Residue p × Nat)
    (terms : List (Residue p × Nat)) :
    sumAt w (term :: terms) = term.1 * w term.2 + sumAt w terms := by
  simp [sumAt]

@[simp] theorem sumAt_append (w : Nat → Residue p) (left right : List (Residue p × Nat)) :
    sumAt w (left ++ right) = sumAt w left + sumAt w right := by
  simp [sumAt]

@[simp] theorem sumAt_zero (terms : List (Residue p × Nat)) : sumAt 0 terms = 0 := by
  simp [sumAt]

theorem sumAt_add (u w : Nat → Residue p) (terms : List (Residue p × Nat)) :
    sumAt (u + w) terms = sumAt u terms + sumAt w terms := by
  induction terms with
  | nil => simp
  | cons term terms ih =>
      rw [sumAt_cons, sumAt_cons, sumAt_cons, ih, Pi.add_apply]
      ring

theorem sumAt_single_of_not_mem {terms : List (Residue p × Nat)} {x : Nat}
    (h : x ∉ terms.map Prod.snd) (k : Residue p) : sumAt (Pi.single x k) terms = 0 := by
  induction terms with
  | nil => rfl
  | cons term terms ih =>
      have hne : term.2 ≠ x := (List.ne_of_not_mem_cons h).symm
      rw [sumAt_cons, ih (List.not_mem_of_not_mem_cons h), Pi.single_eq_of_ne hne, mul_zero,
        add_zero]

/-- Among sorted terms, a variable that alone is not zero singles out its coefficient. -/
theorem sumAt_single_of_mem {terms : List (Residue p × Nat)} (hSorted : terms.Pairwise (·.2 < ·.2))
    {c : Residue p} {x : Nat} (h : (c, x) ∈ terms) (k : Residue p) :
    sumAt (Pi.single x k) terms = c * k := by
  induction terms with
  | nil => cases h
  | cons term terms ih =>
      obtain ⟨hFirst, hRest⟩ := List.pairwise_cons.mp hSorted
      rw [sumAt_cons]
      rcases List.mem_cons.mp h with rfl | h
      · have hOnce : x ∉ terms.map Prod.snd := by
          intro hx
          obtain ⟨other, hOther, rfl⟩ := List.mem_map.mp hx
          exact Nat.lt_irrefl _ (hFirst other hOther)
        rw [sumAt_single_of_not_mem hOnce, Pi.single_eq_same, add_zero]
      · have hne : term.2 ≠ x := (hFirst (c, x) h).ne
        rw [ih hRest h, Pi.single_eq_of_ne hne, mul_zero, zero_add]

theorem value_eq (w : Nat → Residue p) (form : LinearForm p) :
    form.value w = sumAt w form.terms + form.constant := by
  obtain ⟨terms, constant⟩ := form
  induction terms with
  | nil => simp [value]
  | cons term terms ih =>
      rw [sumAt_cons, add_assoc]
      exact congrArg (term.1 * w term.2 + ·) ih

theorem value_sub (w : Nat → Residue p) (a b : LinearForm p) :
    (a - b).value w = a.value w - b.value w := by
  have hNeg (terms : List (Residue p × Nat)) :
      sumAt w (terms.map fun term => (-term.1, term.2)) = -sumAt w terms := by
    induction terms with
    | nil => simp
    | cons term terms ih =>
        rw [List.map_cons, sumAt_cons, sumAt_cons, ih]
        ring
  change (minus a b).value w = _
  rw [value_eq, value_eq, value_eq]
  simp only [minus, sumAt_append, hNeg]
  ring

omit [Modulus p] in
theorem sub_vars (a b : LinearForm p) :
    (a - b).terms.map Prod.snd = a.terms.map Prod.snd ++ b.terms.map Prod.snd := by
  change (minus a b).terms.map Prod.snd = _
  simp [minus]

theorem sumAt_insertTerm (w : Nat → Residue p) (term : Residue p × Nat)
    (terms : List (Residue p × Nat)) :
    sumAt w (insertTerm term terms) = term.1 * w term.2 + sumAt w terms := by
  induction terms with
  | nil => simp [insertTerm]
  | cons head rest ih =>
      rw [insertTerm]
      split_ifs with hBefore hSame
      · simp
      · simp only [sumAt_cons, hSame]
        ring
      · simp only [sumAt_cons, ih]
        ring

/-- Dropping the terms that cancelled does not change the sum. -/
theorem sumAt_filter (w : Nat → Residue p) (terms : List (Residue p × Nat)) :
    sumAt w (terms.filter fun term => term.1 ≠ 0) = sumAt w terms := by
  induction terms with
  | nil => rfl
  | cons term terms ih =>
      by_cases hZero : term.1 = 0
      · rw [List.filter_cons_of_neg (by simp [hZero]), ih, sumAt_cons, hZero]
        ring
      · rw [List.filter_cons_of_pos (by simp [hZero]), sumAt_cons, sumAt_cons, ih]

theorem value_normalize (w : Nat → Residue p) (form : LinearForm p) :
    form.normalize.value w = form.value w := by
  have hSorted (terms : List (Residue p × Nat)) :
      sumAt w (terms.foldr insertTerm []) = sumAt w terms := by
    induction terms with
    | nil => rfl
    | cons term terms ih => rw [List.foldr_cons, sumAt_insertTerm, ih, sumAt_cons]
  rw [value_eq, value_eq, normalize, sumAt_filter, hSorted]

omit [Modulus p] in
theorem insertTerm_vars (term : Residue p × Nat) (terms : List (Residue p × Nat)) :
    (insertTerm term terms).map Prod.snd ⊆ term.2 :: terms.map Prod.snd := by
  induction terms with
  | nil => simp [insertTerm]
  | cons head rest ih =>
      rw [insertTerm]
      split_ifs with hBefore hSame
      · simp
      · simp
      · intro i hi
        rcases List.mem_cons.mp hi with hHead | hi
        · simp [hHead]
        · rcases List.mem_cons.mp (ih hi) with hTerm | hi
          · simp [hTerm]
          · exact List.mem_cons_of_mem _ (List.mem_cons_of_mem _ hi)

/-- Normalization mentions no new variable; it may drop some. -/
theorem normalize_vars (form : LinearForm p) :
    form.normalize.terms.map Prod.snd ⊆ form.terms.map Prod.snd := by
  have hSorted (terms : List (Residue p × Nat)) :
      (terms.foldr insertTerm []).map Prod.snd ⊆ terms.map Prod.snd := by
    induction terms with
    | nil => exact List.Subset.refl _
    | cons term terms ih =>
        exact List.Subset.trans (insertTerm_vars term _) (List.cons_subset_cons _ ih)
  exact List.Subset.trans (List.map_subset _ (List.filter_subset_self _)) (hSorted form.terms)

omit [Modulus p] in
theorem insertTerm_length_le (term : Residue p × Nat) (terms : List (Residue p × Nat)) :
    (insertTerm term terms).length ≤ terms.length + 1 := by
  induction terms with
  | nil => simp [insertTerm]
  | cons head rest ih =>
      rw [insertTerm]
      split_ifs <;> simp [ih]

theorem normalize_length_le (form : LinearForm p) :
    form.normalize.terms.length ≤ form.terms.length := by
  have hSorted (terms : List (Residue p × Nat)) :
      (terms.foldr insertTerm []).length ≤ terms.length := by
    induction terms with
    | nil => exact Nat.le_refl _
    | cons term terms ih =>
        exact (insertTerm_length_le term _).trans (Nat.succ_le_succ ih)
  exact (List.length_filter_le _ _).trans (hSorted form.terms)

omit [Modulus p] in
theorem insertTerm_sorted (term : Residue p × Nat) {terms : List (Residue p × Nat)}
    (h : terms.Pairwise (·.2 < ·.2)) : (insertTerm term terms).Pairwise (·.2 < ·.2) := by
  induction terms with
  | nil => simp [insertTerm]
  | cons head rest ih =>
      obtain ⟨hHead, hRest⟩ := List.pairwise_cons.mp h
      rw [insertTerm]
      split_ifs with hBefore hSame
      · refine List.pairwise_cons.mpr ⟨fun other hOther => ?_, h⟩
        rcases List.mem_cons.mp hOther with rfl | hOther
        · exact hBefore
        · exact hBefore.trans (hHead other hOther)
      · exact List.pairwise_cons.mpr ⟨hHead, hRest⟩
      · refine List.pairwise_cons.mpr ⟨fun other hOther => ?_, ih hRest⟩
        have hVar := insertTerm_vars term rest (List.mem_map_of_mem hOther)
        rcases List.mem_cons.mp hVar with hTerm | hVar
        · omega
        · obtain ⟨old, hOld, hEq⟩ := List.mem_map.mp hVar
          have := hHead old hOld
          omega

/-- A normal form lists its variables in strictly increasing order. -/
theorem normalize_sorted (form : LinearForm p) :
    form.normalize.terms.Pairwise (·.2 < ·.2) := by
  have hSorted (terms : List (Residue p × Nat)) :
      (terms.foldr insertTerm []).Pairwise (·.2 < ·.2) := by
    induction terms with
    | nil => exact List.Pairwise.nil
    | cons term terms ih => exact insertTerm_sorted term ih
  exact (hSorted form.terms).filter _

/-- No coefficient of a normal form is zero. -/
theorem normalize_coeff_ne_zero (form : LinearForm p) :
    ∀ term ∈ form.normalize.terms, term.1 ≠ 0 := by
  intro term hTerm
  have hKept := (List.mem_filter.mp hTerm).2
  simpa using hKept

theorem normalize_constant (form : LinearForm p) : form.normalize.constant = form.value 0 := by
  rw [← value_normalize, value_eq, sumAt_zero, zero_add]

/-- A variable that remains in the normal form moves the value of the form. -/
theorem value_single (form : LinearForm p) {c : Residue p} {x : Nat}
    (hTerm : (c, x) ∈ form.normalize.terms) (k : Residue p) :
    form.value (Pi.single x k) = c * k + form.value 0 := by
  rw [← value_normalize, value_eq, sumAt_single_of_mem (normalize_sorted form) hTerm,
    normalize_constant]

/-- A form looks at its own variables only. -/
theorem value_congr {form : LinearForm p} {u w : Nat → Residue p}
    (h : ∀ x ∈ form.terms.map Prod.snd, u x = w x) : form.value u = form.value w := by
  rw [value_eq, value_eq, sumAt, sumAt]
  congr 2
  apply List.map_congr_left
  intro term hTerm
  rw [h term.2 (List.mem_map_of_mem hTerm)]

/-- The terms of a normal form are told by what the form gains when one variable becomes one. -/
theorem mem_normalize_iff (form : LinearForm p) (c : Residue p) (x : Nat) :
    (c, x) ∈ form.normalize.terms ↔ c ≠ 0 ∧ form.value (Pi.single x 1) = c + form.value 0 := by
  have hGain : form.value (Pi.single x 1) =
      sumAt (Pi.single x 1) form.normalize.terms + form.value 0 := by
    rw [← value_normalize, value_eq, normalize_constant]
  rw [hGain, add_left_inj]
  constructor
  · intro hTerm
    refine ⟨normalize_coeff_ne_zero form _ hTerm, ?_⟩
    rw [sumAt_single_of_mem (normalize_sorted form) hTerm, mul_one]
  · rintro ⟨hNonzero, hSum⟩
    by_cases hx : x ∈ form.normalize.terms.map Prod.snd
    · obtain ⟨⟨c', x⟩, hTerm, rfl⟩ := List.mem_map.mp hx
      rw [sumAt_single_of_mem (normalize_sorted form) hTerm, mul_one] at hSum
      exact hSum ▸ hTerm
    · rw [sumAt_single_of_not_mem hx] at hSum
      exact absurd hSum.symm hNonzero

/-- Forms that take the same values have the same normal form. -/
theorem normalize_eq_of_value_eq {a b : LinearForm p} (h : ∀ w, a.value w = b.value w) :
    a.normalize = b.normalize := by
  have hTerms : a.normalize.terms = b.normalize.terms := by
    have hIrrefl : Std.Irrefl fun s t : Residue p × Nat => s.2 < t.2 :=
      ⟨fun _ => Nat.lt_irrefl _⟩
    have hAntisymm : Std.Antisymm fun s t : Residue p × Nat => s.2 < t.2 :=
      ⟨fun _ _ hst hts => absurd hst (Nat.lt_asymm hts)⟩
    apply (normalize_sorted a).eq_of_mem_iff (normalize_sorted b)
    rintro ⟨c, x⟩
    rw [mem_normalize_iff, mem_normalize_iff, h, h]
  have hConstant : a.normalize.constant = b.normalize.constant := by
    rw [normalize_constant, normalize_constant, h]
  show LinearForm.mk a.normalize.terms a.normalize.constant = b.normalize
  rw [hTerms, hConstant]

end LinearForm

namespace Expr

variable {p : Nat} [Modulus p]

theorem sumAt_termsBefore (w : Nat → Residue p) (k : Residue p) (e : Expr p)
    (rest : List (Residue p × Nat)) :
    LinearForm.sumAt w (e.termsBefore k rest) + e.constantPart k =
      k * e.value w + LinearForm.sumAt w rest := by
  induction e generalizing k rest with
  | const constant => exact add_comm _ _
  | var index => simp [termsBefore, constantPart, value]
  | add left right ihLeft ihRight =>
      simp only [termsBefore, constantPart, value]
      linear_combination ihLeft k (right.termsBefore k rest) + ihRight k rest
  | scale factor body ih =>
      simp only [termsBefore, constantPart, value]
      linear_combination ih (k * factor) rest

/-- The linear form of an expression has the value of the expression. -/
@[simp] theorem value_linear (w : Nat → Residue p) (e : Expr p) :
    e.linear.value w = e.value w := by
  have hSum := sumAt_termsBefore w 1 e []
  rw [LinearForm.value_eq, linear]
  simpa using hSum

theorem value_congr {e : Expr p} {u w : Nat → Residue p} (h : ∀ x ∈ e.vars, u x = w x) :
    e.value u = e.value w := by
  rw [← value_linear, ← value_linear]
  exact LinearForm.value_congr fun x hx => h x (linear_vars e ▸ hx)

end Expr

end ArithCircuit
