import ArithCircuit.Constraint
import ArithCircuit.Proofs.LinearForm
import ArithCircuit.Proofs.Traversal

/-! Constraints as predicates on total assignments. A check against values decides the predicate,
provided that every variable of the constraint can be read. Rows of other kinds than generic have no
equation, so every assignment satisfies them. -/
namespace ArithCircuit

namespace Constraint

variable {p : Nat}

/-- The variables of all operands, from left to right and with repetitions. -/
def vars : Constraint p → List Nat
  | .equal a b => a.vars ++ b.vars
  | .product a b c => a.vars ++ b.vars ++ c.vars
  | .square a b => a.vars ++ b.vars
  | .boolean a => a.vars
  | .range a _ _ => a.vars
  | .raw _ operands _ => operands.flatMap Expr.vars

/-- Whether the constraint is an equation over its operands: all of them but proper range checks
and rows of other kinds than generic. -/
def isAlgebraic : Constraint p → Bool
  | .range _ bits _ => bits == 0
  | .raw kind _ _ => kind == .generic
  | _ => true

/-- Whether checking the constraint reads its operands. -/
def isChecked : Constraint p → Bool
  | .raw kind _ _ => kind == .generic
  | _ => true

theorem isChecked_of_isAlgebraic {c : Constraint p} (h : c.isAlgebraic = true) :
    c.isChecked = true := by
  cases c with
  | raw kind operands coeffs => exact h
  | _ => rfl

variable [Modulus p]

/-- The value in a register of a row that is given directly. -/
def registerValue (w : Nat → Residue p) (operands : List (Expr p)) (register : Nat) : Residue p :=
  (operands.map (Expr.value w)).getD register 0

/-- The assignment satisfies the constraint. -/
def Holds (w : Nat → Residue p) : Constraint p → Prop
  | .equal a b => a.value w = b.value w
  | .product a b c => a.value w * b.value w = c.value w
  | .square a b => a.value w * a.value w = b.value w
  | .boolean a => a.value w = 0 ∨ a.value w = 1
  | .range a bits _ => (a.value w).fitsIn bits = true
  | .raw .generic operands coeffs =>
    (HalfCoeffs.ofListAt coeffs 0).residual (registerValue w operands 0)
        (registerValue w operands 1) (registerValue w operands 2) = 0 ∧
      (HalfCoeffs.ofListAt coeffs 5).residual (registerValue w operands 3)
        (registerValue w operands 4) (registerValue w operands 5) = 0
  | .raw _ _ _ => True

omit [Modulus p] in
theorem verdict_eq_ok_iff {condition : Prop} [Decidable condition] {fault : Fault} :
    (if condition then .ok () else .error fault : Except Fault Unit) = .ok () ↔ condition := by
  split_ifs with h <;> simp [h]

theorem check_other {kind : GateKind} (hKind : kind ≠ .generic) (operands : List (Expr p))
    (coeffs : List (Residue p)) (label : Option String)
    (read : Expr p → Except Fault (Residue p)) :
    (raw kind operands coeffs).check label read = .ok () := by
  cases kind <;> simp_all [check]

theorem holds_other {kind : GateKind} (hKind : kind ≠ .generic) (operands : List (Expr p))
    (coeffs : List (Residue p)) (w : Nat → Residue p) : (raw kind operands coeffs).Holds w := by
  cases kind <;> simp_all [Holds]

/-- A check decides the predicate when the variables of the constraint can be read. -/
theorem check_iff_holds {read : Nat → Except Fault (Residue p)} {w : Nat → Residue p}
    (c : Constraint p) (label : Option String) (hRead : ∀ i ∈ c.vars, read i = .ok (w i)) :
    c.check label (fun e => e.eval read) = .ok () ↔ c.Holds w := by
  have hEval (e : Expr p) (he : e.vars ⊆ c.vars) : e.eval read = .ok (e.value w) :=
    Expr.eval_eq_value e fun i hi => hRead i (he hi)
  cases c with
  | equal a b =>
      have ha := hEval a (by simp [vars])
      have hb := hEval b (by simp [vars])
      simp only [check, ha, hb, bind, Except.bind]
      exact verdict_eq_ok_iff
  | product a b o =>
      have ha := hEval a (by simp [vars])
      have hb := hEval b (by simp [vars])
      have ho := hEval o (by simp [vars])
      simp only [check, ha, hb, ho, bind, Except.bind]
      exact verdict_eq_ok_iff
  | square a b =>
      have ha := hEval a (by simp [vars])
      have hb := hEval b (by simp [vars])
      simp only [check, ha, hb, bind, Except.bind]
      exact verdict_eq_ok_iff
  | boolean a =>
      have ha := hEval a (List.Subset.refl _)
      simp only [check, ha, bind, Except.bind]
      exact verdict_eq_ok_iff
  | range a bits variant =>
      have ha := hEval a (List.Subset.refl _)
      simp only [check, ha, bind, Except.bind]
      exact verdict_eq_ok_iff
  | raw kind operands coeffs =>
      by_cases hKind : kind = .generic
      · subst hKind
        have hGiven : operands.mapM (fun e => e.eval read) = .ok (operands.map (Expr.value w)) :=
          Traversal.mapM_eq_map fun e he =>
            hEval e fun i hi => List.mem_flatMap.mpr ⟨e, he, hi⟩
        simp only [check, hGiven, bind, Except.bind]
        exact verdict_eq_ok_iff
      · exact ⟨fun _ => holds_other hKind operands coeffs w,
          fun _ => check_other hKind operands coeffs label _⟩

/-- A check that passes has read every variable, unless the constraint has no equation. -/
theorem exists_read_of_check {read : Nat → Except Fault (Residue p)} {c : Constraint p}
    {label : Option String} (hCheck : c.check label (fun e => e.eval read) = .ok ())
    (hChecked : c.isChecked = true) : ∀ i ∈ c.vars, ∃ y, read i = .ok y := by
  have hOperand {e : Expr p} {x : Residue p} (he : e.eval read = .ok x) :
      ∀ i ∈ e.vars, ∃ y, read i = .ok y := fun _ hi => Expr.exists_read_of_eval he hi
  cases c with
  | equal a b =>
      obtain ⟨x, ha, hRest⟩ := Traversal.exists_of_bind_eq_ok hCheck
      obtain ⟨y, hb, -⟩ := Traversal.exists_of_bind_eq_ok hRest
      intro i hi
      rcases List.mem_append.mp hi with hi | hi
      · exact hOperand ha i hi
      · exact hOperand hb i hi
  | product a b o =>
      obtain ⟨x, ha, hRest⟩ := Traversal.exists_of_bind_eq_ok hCheck
      obtain ⟨y, hb, hRest⟩ := Traversal.exists_of_bind_eq_ok hRest
      obtain ⟨z, ho, -⟩ := Traversal.exists_of_bind_eq_ok hRest
      intro i hi
      rcases List.mem_append.mp hi with hi | hi
      · rcases List.mem_append.mp hi with hi | hi
        · exact hOperand ha i hi
        · exact hOperand hb i hi
      · exact hOperand ho i hi
  | square a b =>
      obtain ⟨x, ha, hRest⟩ := Traversal.exists_of_bind_eq_ok hCheck
      obtain ⟨y, hb, -⟩ := Traversal.exists_of_bind_eq_ok hRest
      intro i hi
      rcases List.mem_append.mp hi with hi | hi
      · exact hOperand ha i hi
      · exact hOperand hb i hi
  | boolean a =>
      obtain ⟨x, ha, -⟩ := Traversal.exists_of_bind_eq_ok hCheck
      exact hOperand ha
  | range a bits variant =>
      obtain ⟨x, ha, -⟩ := Traversal.exists_of_bind_eq_ok hCheck
      exact hOperand ha
  | raw kind operands coeffs =>
      obtain rfl : kind = .generic := by simpa [isChecked] using hChecked
      obtain ⟨given, hGiven, -⟩ := Traversal.exists_of_bind_eq_ok hCheck
      intro i hi
      obtain ⟨e, he, hi⟩ := List.mem_flatMap.mp hi
      obtain ⟨x, hx⟩ := Traversal.exists_of_mapM_eq_ok hGiven e he
      exact hOperand hx i hi

end Constraint

/-- The check of the assertion accepts a total assignment. -/
def Assertion.Passes {p : Nat} [Modulus p] (w : Nat → Residue p) (assertion : Assertion p) : Prop :=
  assertion.constraint.check assertion.label (fun e => e.eval fun x => .ok (w x)) = .ok ()

instance {p : Nat} [Modulus p] (w : Nat → Residue p) (assertion : Assertion p) :
    Decidable (assertion.Passes w) :=
  inferInstanceAs (Decidable (assertion.constraint.check assertion.label _ = .ok ()))

theorem Assertion.passes_iff {p : Nat} [Modulus p] {w : Nat → Residue p} {assertion : Assertion p} :
    assertion.Passes w ↔ assertion.constraint.Holds w :=
  Constraint.check_iff_holds assertion.constraint assertion.label fun _ _ => rfl

end ArithCircuit
