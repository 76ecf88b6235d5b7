import ArithCircuit.Proofs.ConstantFolding
import ArithCircuit.Proofs.ModeAgreement

/-! Circuits over constants. Their expressions are built from constants by the operators and the
gadgets, and their assertions relate what was built before. With constant folding such a circuit
compiles to nothing if it is right, and not at all if it is wrong. -/
namespace ArithCircuit

/-- What a circuit over constants may assert about earlier results, which are given by their
positions. -/
inductive ConstantRelation (p : Nat) where
  | equal (a b : Nat)
  | product (a b c : Nat)
  | square (a b : Nat)
  | boolean (a : Nat)
  | range (a bits : Nat) (variant : RangeVariant)
  | generic (operands : List Nat) (coeffs : List (Residue p))
    (hArity : GateKind.generic.checkArity operands.length coeffs.length = .ok ())

/-- A step of a circuit over constants. Its operands are earlier results, given by their positions;
a position that has no result yet stands for zero. -/
inductive ConstantStep (p : Nat) where
  | const (x : Residue p)
  | add (a b : Nat)
  | sub (a b : Nat)
  | neg (a : Nat)
  | scale (k : Residue p) (a : Nat)
  | sum (terms : List Nat)
  | combination (terms : List (Residue p × Nat))
  | mul (a b : Nat) (label : Option String)
  | square (a : Nat) (label : Option String)
  | inv (a : Nat) (label : Option String)
  | div (a b : Nat) (label : Option String)
  | equal (a b : Nat)
  | select (condition yes no : Nat)
  | assert (relation : ConstantRelation p) (label : Option String)

/-- A circuit over constants. -/
abbrev ConstantCircuit (p : Nat) := List (ConstantStep p)

section

variable {p : Nat} [Modulus p]

theorem Expr.getD_map_const (values : List (Residue p)) (i : Nat) :
    (values.map const).getD i 0 = const (values.getD i 0) := by
  rw [List.getD_eq_getElem?_getD, List.getD_eq_getElem?_getD, List.getElem?_map]
  cases values[i]? with
  | none => rfl
  | some x => rfl

omit [Modulus p] in
theorem Residue.fitsIn_iff (a : Residue p) (bits : Nat) :
    a.fitsIn bits = true ↔ a.val < 2 ^ bits := by
  rw [fitsIn, Bool.or_eq_true, beq_iff_eq, decide_eq_true_iff]
  by_cases hZero : a.val = 0
  · simp [hZero]
  · rw [or_iff_right hZero, Nat.log2_lt hZero]

end

namespace ConstantRelation

variable {p : Nat} [Modulus p]

/-- The constraint that states the relation. -/
def constraint (results : List (Expr p)) : ConstantRelation p → Constraint p
  | .equal a b => .equal (results.getD a 0) (results.getD b 0)
  | .product a b c => .product (results.getD a 0) (results.getD b 0) (results.getD c 0)
  | .square a b => .square (results.getD a 0) (results.getD b 0)
  | .boolean a => .boolean (results.getD a 0)
  | .range a bits variant => .range (results.getD a 0) bits variant
  | .generic operands coeffs _ => .raw .generic (operands.map fun a => results.getD a 0) coeffs

/-- The relation between values. A generic row relates its registers by two equations. -/
def Holds (values : List (Residue p)) : ConstantRelation p → Prop
  | .equal a b => values.getD a 0 = values.getD b 0
  | .product a b c => values.getD a 0 * values.getD b 0 = values.getD c 0
  | .square a b => values.getD a 0 ^ 2 = values.getD b 0
  | .boolean a => values.getD a 0 = 0 ∨ values.getD a 0 = 1
  | .range a bits _ => (values.getD a 0).val < 2 ^ bits
  | .generic operands coeffs _ =>
    let register (i : Nat) : Residue p := (operands.map fun a => values.getD a 0).getD i 0
    let k (i : Nat) : Residue p := coeffs.getD i 0
    k 0 * register 0 + k 1 * register 1 + k 2 * register 2 + k 3 * register 0 * register 1 +
        k 4 = 0 ∧
      k 5 * register 3 + k 6 * register 4 + k 7 * register 5 + k 8 * register 3 * register 4 +
        k 9 = 0

theorem constraint_closed (relation : ConstantRelation p) (values : List (Residue p)) :
    (relation.constraint (values.map .const)).Closed := by
  have hVars (i : Nat) : ((values.map Expr.const).getD i 0).vars = [] := by
    rw [Expr.getD_map_const]
    rfl
  cases relation with
  | generic operands coeffs hArity =>
      refine ⟨?_, rfl, ?_⟩
      · apply List.flatMap_eq_nil_iff.mpr
        intro e he
        obtain ⟨a, -, rfl⟩ := List.mem_map.mp he
        exact hVars a
      · rw [constraint, Constraint.checkArity, List.length_map, hArity]
  | _ => exact ⟨by simp only [constraint, Constraint.vars, hVars, List.append_nil], rfl, rfl⟩

theorem constraint_holds_iff (relation : ConstantRelation p) (values : List (Residue p)) :
    (relation.constraint (values.map .const)).Holds 0 ↔ relation.Holds values := by
  have hValue (i : Nat) : ((values.map Expr.const).getD i 0).value 0 = values.getD i 0 := by
    rw [Expr.getD_map_const]
    rfl
  cases relation with
  | equal a b => simp only [constraint, Constraint.Holds, hValue, Holds]
  | product a b c => simp only [constraint, Constraint.Holds, hValue, Holds]
  | square a b => simp only [constraint, Constraint.Holds, hValue, Holds, sq]
  | boolean a => simp only [constraint, Constraint.Holds, hValue, Holds]
  | range a bits variant =>
      simp only [constraint, Constraint.Holds, hValue, Holds, Residue.fitsIn_iff]
  | generic operands coeffs hArity =>
      have hRegister (i : Nat) : Constraint.registerValue 0
          (operands.map fun a => (values.map Expr.const).getD a 0) i =
            (operands.map fun a => values.getD a 0).getD i 0 := by
        rw [Constraint.registerValue, List.map_map]
        simp only [Function.comp_def, hValue]
      simp only [constraint, Constraint.Holds, hRegister, Holds, HalfCoeffs.residual,
        HalfCoeffs.ofListAt]

instance (values : List (Residue p)) :
    (relation : ConstantRelation p) → Decidable (relation.Holds values)
  | .equal _ _ | .product _ _ _ | .square _ _ => inferInstanceAs (Decidable (_ = _))
  | .boolean _ => inferInstanceAs (Decidable (_ ∨ _))
  | .range _ _ _ => inferInstanceAs (Decidable (_ < _))
  | .generic _ _ _ => inferInstanceAs (Decidable (_ ∧ _))

end ConstantRelation

namespace ConstantStep

variable {p : Nat} [Modulus p]

/-- Execute a step after those with the given results. -/
def action (results : List (Expr p)) : ConstantStep p → Action p (List (Expr p))
  | .const x => return [.const x]
  | .add a b => return [results.getD a 0 + results.getD b 0]
  | .sub a b => return [results.getD a 0 - results.getD b 0]
  | .neg a => return [-results.getD a 0]
  | .scale k a => return [(results.getD a 0).scaleBy k]
  | .sum terms => return [Expr.sum (terms.map fun a => results.getD a 0)]
  | .combination terms =>
    return [Expr.combination (terms.map fun term => (term.1, results.getD term.2 0))]
  | .mul a b label => Action.single (Gadget.mul (results.getD a 0) (results.getD b 0) label)
  | .square a label => Action.single (Gadget.square (results.getD a 0) label)
  | .inv a label => Action.single (Gadget.inv (results.getD a 0) label)
  | .div a b label => Action.single (Gadget.div (results.getD a 0) (results.getD b 0) label)
  | .equal a b => Action.single (Gadget.equal (results.getD a 0) (results.getD b 0))
  | .select condition yes no => Action.single
      (Gadget.select (results.getD condition 0) (results.getD yes 0) (results.getD no 0))
  | .assert relation label => do
    Action.constrain (relation.constraint results) label
    return []

/-- The value of a step over the values of the results before it, unless it inverts zero. A choice
is taken linearly between its two sides. -/
def value? (values : List (Residue p)) : ConstantStep p → Option (List (Residue p))
  | .const x => some [x]
  | .add a b => some [values.getD a 0 + values.getD b 0]
  | .sub a b => some [values.getD a 0 - values.getD b 0]
  | .neg a => some [-values.getD a 0]
  | .scale k a => some [k * values.getD a 0]
  | .sum terms => some [(terms.map fun a => values.getD a 0).sum]
  | .combination terms => some [(terms.map fun term => term.1 * values.getD term.2 0).sum]
  | .mul a b _ => some [values.getD a 0 * values.getD b 0]
  | .square a _ => some [values.getD a 0 ^ 2]
  | .inv a _ => if values.getD a 0 = 0 then none else some [(values.getD a 0)⁻¹]
  | .div a b _ => if values.getD b 0 = 0 then none else some [values.getD a 0 / values.getD b 0]
  | .equal a b => some [if values.getD a 0 = values.getD b 0 then 1 else 0]
  | .select condition yes no =>
    some [values.getD condition 0 * (values.getD yes 0 - values.getD no 0) + values.getD no 0]
  | .assert _ _ => some []

/-- What a step asserts. -/
def Holds (values : List (Residue p)) : ConstantStep p → Prop
  | .assert relation _ => relation.Holds values
  | _ => True

instance (values : List (Residue p)) : (step : ConstantStep p) → Decidable (step.Holds values)
  | .assert relation _ => inferInstanceAs (Decidable (relation.Holds values))
  | .const _ | .add _ _ | .sub _ _ | .neg _ | .scale _ _ | .sum _ | .combination _ | .mul _ _ _
  | .square _ _ | .inv _ _ | .div _ _ _ | .equal _ _ | .select _ _ _ =>
    inferInstanceAs (Decidable True)

end ConstantStep

/-- A run in which nothing but constraints over constants has been recorded, and no variable
allocated. What waits holds under the given condition. -/
structure RunState.Folding {p : Nat} [Modulus p] (state : RunState p) (condition : Prop) :
    Prop where
  mode : state.mode = .constraintGeneration
  table : state.table = .empty
  recording : ∃ recording, state.recording = some recording ∧ recording.Folds condition

namespace RunState.Folding

variable {p : Nat} [Modulus p] {state : RunState p} {condition : Prop}

theorem congr (h : state.Folding condition) {condition' : Prop} (hIff : condition ↔ condition') :
    state.Folding condition' := by
  rwa [← propext hIff]

theorem foldConstants (h : state.Folding condition) : state.foldConstants = true := by
  obtain ⟨recording, hRecording, hFolds⟩ := h.recording
  rw [RunState.foldConstants, hRecording]
  exact hFolds.foldConstants

theorem enter (hFold : state.settings.foldConstants = true) :
    (state.enter .constraintGeneration).Folding True :=
  ⟨rfl, rfl, _, rfl, Recording.start_folds hFold⟩

/-- A constraint over constants is refused at once, or counts among those that have to hold. -/
theorem constrain (h : state.Folding condition) {constraint : Constraint p}
    (hClosed : constraint.Closed) (label : Option String) :
    (∃ next, Action.constrain constraint label state = (.ok (), next) ∧
      next.Folding (condition ∧ constraint.Holds 0)) ∨
    (∃ stop next, Action.constrain constraint label state = (.error stop, next) ∧
      next.table = .empty) ∧ ¬ constraint.Holds 0 := by
  obtain ⟨recording, hRecording, hFolds⟩ := h.recording
  have hConstrain : Action.constrain constraint label state =
      Action.record ⟨label, constraint⟩ state := by
    have hChecks : Action.checks state = false := by
      rw [Action.checks, h.mode]
    have hIdle : ¬ state.mode = .idle := by
      rw [h.mode]
      decide
    simp only [Action.constrain, Action.inMode, if_neg hIdle, hClosed.arity, hChecks]
    rfl
  rw [hConstrain, Action.record_of_some hRecording, h.table]
  have hClosed' : (⟨label, constraint⟩ : Assertion p).constraint.Closed := hClosed
  rcases hFolds.add hClosed' with
    ⟨next, hAdd, hNext⟩ | ⟨⟨stop, next, hAdd⟩, hNot⟩
  · rw [hAdd]
    exact .inl ⟨_, rfl, h.mode, rfl, next, rfl, hNext⟩
  · rw [hAdd]
    exact .inr ⟨⟨stop, _, rfl, rfl⟩, hNot⟩

/-- What has been recorded over constants is closed without rows and variables, or refused. -/
theorem finishCircuit [Fact p.Prime] (h : state.Folding condition) :
    (∃ circuit, (Action.finishCircuit state).1 = .ok circuit ∧ circuit.gates = [] ∧
      circuit.variableCount = 0 ∧ condition) ∨
    (∃ stop, (Action.finishCircuit state).1 = .error stop) ∧ ¬ condition := by
  obtain ⟨recording, hRecording, hFolds⟩ := h.recording
  have hFinish : (Action.finishCircuit state).1 = (recording.finalize .empty).1 := by
    simp only [Action.finishCircuit, hRecording, h.table]
  rw [hFinish]
  rcases hFolds.finalize with ⟨circuit, hFinal, hCircuit⟩ | ⟨⟨stop, hFinal⟩, hNot⟩
  · rw [hFinal]
    exact .inl ⟨circuit, rfl, hCircuit⟩
  · rw [hFinal]
    exact .inr ⟨⟨stop, rfl⟩, hNot⟩

end RunState.Folding

namespace Gadget

variable {p : Nat} [Modulus p] {state : RunState p} (h : state.foldConstants = true)
include h

theorem mul_const (x y : Residue p) (label : Option String) :
    mul (.const x) (.const y) label state = (.ok (.const (x * y)), state) := by
  simp only [mul, h]
  rfl

theorem square_const (x : Residue p) (label : Option String) :
    square (.const x) label state = (.ok (.const (x ^ 2)), state) := by
  rw [sq]
  exact if_pos h

theorem inv_const {x : Residue p} (hx : x ≠ 0) (label : Option String) :
    inv (.const x) label state = (.ok (.const x⁻¹), state) := by
  simp only [inv, h, Residue.inv?, if_neg hx]
  rfl

theorem inv_zero (label : Option String) :
    ∃ stop, inv (.const (0 : Residue p)) label state = (.error stop, state) := by
  simp only [inv, h, Residue.inv?, if_true]
  exact ⟨_, rfl⟩

theorem div_const (x : Residue p) {y : Residue p} (hy : y ≠ 0) (label : Option String) :
    div (.const x) (.const y) label state = (.ok (.const (x / y)), state) := by
  simp only [div, bind, Stateful.andThen, inv_const h hy]
  exact mul_const h x y⁻¹ label

theorem div_zero (x : Residue p) (label : Option String) :
    ∃ stop, div (.const x) (.const (0 : Residue p)) label state = (.error stop, state) := by
  obtain ⟨stop, hInv⟩ := inv_zero h label
  exact ⟨stop, by simp only [div, bind, Stateful.andThen, hInv]⟩

omit h in
theorem equal_const (x y : Residue p) :
    equal (.const x) (.const y) state = (.ok (.const (if x = y then 1 else 0)), state) := by
  show (Except.ok (if x = y then (1 : Expr p) else 0), state) = _
  split_ifs
  · rfl
  · rfl

theorem select_const (condition yes no : Residue p) :
    select (.const condition) (.const yes) (.const no) state =
      (.ok (.const (condition * (yes - no) + no)), state) := by
  unfold select
  split_ifs with hOne hZero
  · have hCondition : condition = 1 := Expr.const.inj hOne
    rw [hCondition, one_mul, sub_add_cancel]
    rfl
  · have hCondition : condition = 0 := Expr.const.inj hZero
    rw [hCondition, zero_mul, zero_add]
    rfl
  · simp only [bind, Stateful.andThen, Expr.const_sub, mul_const h, pure, Stateful.ret,
      Expr.const_add]

end Gadget

/-- What becomes of steps over constants. Either their values are there, as constants, and what
waits holds if the steps are right, or they are stopped because they are not. No variable is
allocated either way. -/
inductive Folded {p : Nat} [Modulus p] (values? : Option (List (Residue p))) (right : Prop) :
    Except Stop (List (Expr p)) × RunState p → Prop
  | done {values : List (Residue p)} {next : RunState p} (hValues : values? = some values)
    (hNext : next.Folding right) : Folded values? right (.ok (values.map .const), next)
  | stopped {stop : Stop} {next : RunState p} (hTable : next.table = .empty)
    (hWrong : ¬ right) : Folded values? right (.error stop, next)

namespace Folded

variable {p : Nat} [Modulus p] {values? : Option (List (Residue p))} {right : Prop}
  {outcome : Except Stop (List (Expr p)) × RunState p}

theorem table (h : Folded values? right outcome) : outcome.2.table = .empty := by
  cases h with
  | done hValues hNext => exact hNext.table
  | stopped hTable hWrong => exact hTable

theorem results (h : Folded values? right outcome) {results : List (Expr p)}
    (hOk : outcome.1 = .ok results) :
    ∃ values, values? = some values ∧ results = values.map .const := by
  cases h with
  | done hValues hNext => exact ⟨_, hValues, (Except.ok.inj hOk).symm⟩
  | stopped hTable hWrong => cases hOk

end Folded

namespace ConstantStep

variable {p : Nat} [Modulus p] {state : RunState p} {condition : Prop}
  {step : ConstantStep p} {values : List (Residue p)}

/-- The step does not invert zero, and what it asserts holds. -/
def Right (step : ConstantStep p) (values : List (Residue p)) : Prop :=
  step.Holds values ∧ ∃ more, step.value? values = some more

/-- A step that asserts nothing gives its value as a constant. -/
theorem folded_of_value (h : state.Folding condition) {x : Residue p}
    (hHolds : step.Holds values) (hValue : step.value? values = some [x])
    (hAction : step.action (values.map .const) state = (.ok [.const x], state)) :
    Folded (step.value? values) (condition ∧ step.Right values)
      (step.action (values.map .const) state) := by
  rw [hAction]
  exact .done hValue (h.congr (and_iff_left ⟨hHolds, _, hValue⟩).symm)

/-- A step that inverts zero is stopped. -/
theorem folded_of_inversion (h : state.Folding condition) (stop : Stop)
    (hValue : step.value? values = none)
    (hAction : step.action (values.map .const) state = (.error stop, state)) :
    Folded (step.value? values) (condition ∧ step.Right values)
      (step.action (values.map .const) state) := by
  rw [hAction]
  apply Folded.stopped h.table
  rintro ⟨-, -, more, hMore⟩
  rw [hValue] at hMore
  cases hMore

omit [Modulus p] in
theorem single_of_eq {action : Action p (Expr p)} {result : Except Stop (Expr p)}
    (hAction : action state = (result, state)) :
    action.single state = (result.map fun e => [e], state) := by
  show Stateful.andThen action (fun e => pure [e]) state = _
  rw [Stateful.andThen, hAction]
  cases result with
  | error stop => rfl
  | ok e => rfl

/-- Every step on constants gives constants, and asserts what its values have to satisfy. -/
theorem action_folded (h : state.Folding condition) (step : ConstantStep p)
    (values : List (Residue p)) :
    Folded (step.value? values) (condition ∧ step.Right values)
      (step.action (values.map .const) state) := by
  have hFold := h.foldConstants
  have hAt := Expr.getD_map_const values
  cases step with
  | const x => exact folded_of_value h trivial rfl rfl
  | add a b =>
      refine folded_of_value h trivial rfl ?_
      rw [action, hAt, hAt, Expr.const_add]
      rfl
  | sub a b =>
      refine folded_of_value h trivial rfl ?_
      rw [action, hAt, hAt, Expr.const_sub]
      rfl
  | neg a =>
      refine folded_of_value h trivial rfl ?_
      rw [action, hAt, Expr.const_neg]
      rfl
  | scale k a =>
      refine folded_of_value h trivial rfl ?_
      rw [action, hAt, Expr.const_scaleBy]
      rfl
  | sum terms =>
      refine folded_of_value h trivial rfl ?_
      have hTerms := Expr.sum_const (terms.map fun a => values.getD a 0)
      rw [List.map_map] at hTerms
      simp only [action, hAt]
      exact congrArg (fun e => (Except.ok [e], state)) hTerms
  | combination terms =>
      refine folded_of_value h trivial rfl ?_
      have hTerms := Expr.combination_const (terms.map fun term => (term.1, values.getD term.2 0))
      rw [List.map_map, List.map_map] at hTerms
      simp only [action, hAt]
      exact congrArg (fun e => (Except.ok [e], state)) hTerms
  | mul a b label =>
      refine folded_of_value h trivial rfl ?_
      rw [action, hAt, hAt]
      exact single_of_eq (Gadget.mul_const hFold _ _ label)
  | square a label =>
      refine folded_of_value h trivial rfl ?_
      rw [action, hAt]
      exact single_of_eq (Gadget.square_const hFold _ label)
  | inv a label =>
      by_cases hZero : values.getD a 0 = 0
      · obtain ⟨stop, hInv⟩ := Gadget.inv_zero hFold label
        refine folded_of_inversion h stop (if_pos hZero) ?_
        rw [action, hAt, hZero]
        exact single_of_eq hInv
      · refine folded_of_value h trivial (if_neg hZero) ?_
        rw [action, hAt]
        exact single_of_eq (Gadget.inv_const hFold hZero label)
  | div a b label =>
      by_cases hZero : values.getD b 0 = 0
      · obtain ⟨stop, hDiv⟩ := Gadget.div_zero hFold (values.getD a 0) label
        refine folded_of_inversion h stop (if_pos hZero) ?_
        rw [action, hAt, hAt, hZero]
        exact single_of_eq hDiv
      · refine folded_of_value h trivial (if_neg hZero) ?_
        rw [action, hAt, hAt]
        exact single_of_eq (Gadget.div_const hFold _ hZero label)
  | equal a b =>
      refine folded_of_value h trivial rfl ?_
      rw [action, hAt, hAt]
      exact single_of_eq (Gadget.equal_const _ _)
  | select condition yes no =>
      refine folded_of_value h trivial rfl ?_
      rw [action, hAt, hAt, hAt]
      exact single_of_eq (Gadget.select_const hFold _ _ _)
  | assert relation label =>
      have hRight : (ConstantStep.assert relation label).Right values ↔
          (relation.constraint (values.map .const)).Holds 0 := by
        rw [relation.constraint_holds_iff]
        exact and_iff_left ⟨[], rfl⟩
      rw [hRight]
      show Folded _ _ (Stateful.andThen (Action.constrain _ label) (fun _ => pure []) state)
      rw [Stateful.andThen]
      rcases h.constrain (relation.constraint_closed values) label with
        ⟨next, hConstrain, hNext⟩ | ⟨⟨stop, next, hConstrain, hTable⟩, hNot⟩
      · rw [hConstrain]
        exact .done rfl hNext
      · rw [hConstrain]
        exact .stopped hTable fun hBoth => hNot hBoth.2

end ConstantStep

namespace ConstantCircuit

variable {p : Nat} [Modulus p]

/-- Execute a circuit after steps with the given results. The results are all expressions produced
so far. -/
def runFrom : ConstantCircuit p → List (Expr p) → Action p (List (Expr p))
  | [], results => return results
  | step :: rest, results => do
    let more ← step.action results
    runFrom rest (results ++ more)

/-- The values of all results, unless zero is inverted. -/
def valuesFrom : ConstantCircuit p → List (Residue p) → Option (List (Residue p))
  | [], values => some values
  | step :: rest, values => (step.value? values).bind fun more => valuesFrom rest (values ++ more)

/-- Every assertion holds, and zero is never inverted. -/
def CorrectFrom : ConstantCircuit p → List (Residue p) → Prop
  | [], _ => True
  | step :: rest, values =>
    step.Holds values ∧ ∃ more ∈ step.value? values, CorrectFrom rest (values ++ more)

instance decidableCorrectFrom :
    (circuit : ConstantCircuit p) → (values : List (Residue p)) →
      Decidable (circuit.CorrectFrom values)
  | [], _ => inferInstanceAs (Decidable True)
  | step :: rest, values =>
    have : ∀ more, Decidable (CorrectFrom rest (values ++ more)) := fun more =>
      decidableCorrectFrom rest (values ++ more)
    inferInstanceAs (Decidable (step.Holds values ∧
      ∃ more ∈ step.value? values, CorrectFrom rest (values ++ more)))

def run (circuit : ConstantCircuit p) : Action p (List (Expr p)) := circuit.runFrom []

/-- Execute a circuit for what it records. -/
def body (circuit : ConstantCircuit p) : Action p Unit := do
  let _ ← circuit.run

/-- The constraints that a run over constants leaves behind hold if the circuit is right, and a run
that is stopped was wrong. -/
theorem runFrom_folded (circuit : ConstantCircuit p) {state : RunState p} {condition : Prop}
    (h : state.Folding condition) (values : List (Residue p)) :
    Folded (circuit.valuesFrom values) (condition ∧ circuit.CorrectFrom values)
      (circuit.runFrom (values.map .const) state) := by
  induction circuit generalizing state condition values with
  | nil => exact .done rfl (h.congr (and_iff_left trivial).symm)
  | cons step rest ih =>
      have hStep := ConstantStep.action_folded h step values
      show Folded _ _ (Stateful.andThen (step.action (values.map .const))
        (fun more => runFrom rest (values.map .const ++ more)) state)
      rw [Stateful.andThen]
      generalize hResult : step.action (values.map .const) state = result at hStep
      cases hStep with
      | stopped hTable hWrong =>
          apply Folded.stopped hTable
          rintro ⟨hCondition, hHolds, more, hMore, -⟩
          exact hWrong ⟨hCondition, hHolds, more, hMore⟩
      | @done more next hMore hNext =>
          have hValues : valuesFrom (step :: rest) values = valuesFrom rest (values ++ more) := by
            rw [valuesFrom, hMore, Option.bind_some]
          have hCorrect : CorrectFrom (step :: rest) values ↔
              step.Right values ∧ CorrectFrom rest (values ++ more) := by
            rw [CorrectFrom, ConstantStep.Right, hMore]
            simp
          rw [hValues, hCorrect, ← and_assoc]
          simp only [← List.map_append]
          exact ih hNext (values ++ more)

theorem circuitOf_body {circuit : ConstantCircuit p} {state next : RunState p}
    {result : Except Stop (List (Expr p))}
    (h : circuit.run (state.enter .constraintGeneration) = (result, next)) :
    (Action.circuitOf circuit.body state).1 =
      result.bind fun _ => (Action.finishCircuit next).1 := by
  simp only [Action.circuitOf, Action.within_eq, body, bind, Stateful.andThen, h]
  cases result with
  | error stop => rfl
  | ok results => rfl

theorem run_folded (circuit : ConstantCircuit p) {state : RunState p}
    (hFold : state.settings.foldConstants = true) :
    Folded (circuit.valuesFrom []) (circuit.CorrectFrom [])
      (circuit.run (state.enter .constraintGeneration)) := by
  have hRun := circuit.runFrom_folded (RunState.Folding.enter hFold) []
  rwa [true_and] at hRun

/-- A circuit over constants is built without rows and variables, or it is wrong. -/
theorem circuitOf_cases [Fact p.Prime] (circuit : ConstantCircuit p) {state : RunState p}
    (hFold : state.settings.foldConstants = true) :
    (∃ built, (Action.circuitOf circuit.body state).1 = .ok built ∧ built.gates = [] ∧
      built.variableCount = 0 ∧ circuit.CorrectFrom []) ∨
    (∃ stop, (Action.circuitOf circuit.body state).1 = .error stop) ∧
      ¬ circuit.CorrectFrom [] := by
  have hRun := circuit.run_folded hFold
  generalize hOutcome : circuit.run (state.enter .constraintGeneration) = outcome at hRun
  cases hRun with
  | stopped hTable hWrong => exact .inr ⟨⟨_, circuitOf_body hOutcome⟩, hWrong⟩
  | done hValues hNext =>
      rw [circuitOf_body hOutcome]
      exact hNext.finishCircuit

/-- Constant folding is complete. Whatever the other settings, and as far as a circuit over
constants is executed, its expressions are constants with the values that it computes and no
variable is allocated. The circuit compiles exactly if every assertion holds and zero is never
inverted, and then it has no rows and no variables. -/
theorem compiles_to_nothing [Fact p.Prime] (circuit : ConstantCircuit p) (state : RunState p)
    (hFold : state.settings.foldConstants = true) :
    (∀ before : ConstantCircuit p, before <+: circuit →
      (before.run (state.enter .constraintGeneration)).2.table = .empty ∧
      ∀ results, (before.run (state.enter .constraintGeneration)).1 = .ok results →
        ∃ values, before.valuesFrom [] = some values ∧ results = values.map .const) ∧
    ((∃ built, (Action.circuitOf circuit.body state).1 = .ok built) ↔ circuit.CorrectFrom []) ∧
    ∀ built, (Action.circuitOf circuit.body state).1 = .ok built →
      built.gates = [] ∧ built.variableCount = 0 := by
  refine ⟨fun before _ => ⟨(before.run_folded hFold).table, ?_⟩, ?_⟩
  · intro results hOk
    exact (before.run_folded hFold).results hOk
  rcases circuit.circuitOf_cases hFold with
    ⟨circuit', hBuilt, hGates, hCount, hCorrect⟩ | ⟨⟨stop, hStop⟩, hWrong⟩
  · rw [hBuilt]
    refine ⟨⟨fun _ => hCorrect, fun _ => ⟨circuit', rfl⟩⟩, ?_⟩
    intro built hOk
    rw [← Except.ok.inj hOk]
    exact ⟨hGates, hCount⟩
  · rw [hStop]
    refine ⟨⟨?_, fun hCorrect => absurd hCorrect hWrong⟩, ?_⟩
    · rintro ⟨built, hOk⟩
      cases hOk
    · intro built hOk
      cases hOk

/-- A circuit that uses all operations compiles to nothing also without unification. A further
assertion that fails is noticed, and so is the inverse of a zero that was computed. -/
theorem compiles_to_nothing_literals :
    let state : RunState 13 := .idle ⟨true, false, .off, false⟩
    let circuit : ConstantCircuit 13 := [.const 2, .const 3, .scale 4 1, .add 0 2, .sub 1 0,
      .mul 2 0 none, .square 5 none, .inv 1 none, .div 6 1 none, .neg 8, .sum [8, 9],
      .combination [(5, 0), (1, 1)], .equal 10 11, .select 12 0 1,
      .assert (.equal 13 0) none, .assert (.product 2 0 5) none, .assert (.square 5 6) none,
      .assert (.boolean 12) none, .assert (.range 8 4 .compact) none,
      .assert (.generic [2, 0, 5, 12, 12, 0] [0, 0, -1, 1, 0, 1, 1, -1, 0, 0] rfl) none]
    state.settings.foldConstants = true ∧
      (∃ built, (Action.circuitOf circuit.body state).1 = .ok built ∧ built.gates = [] ∧
        built.variableCount = 0) ∧
      ∀ last ∈ [ConstantStep.assert (.range 8 2 .single) none, .inv 10 none],
        ∀ built, (Action.circuitOf (body (circuit ++ [last])) state).1 ≠ .ok built := by
  intro state circuit
  have : Fact (Nat.Prime 13) := ⟨by decide⟩
  obtain ⟨-, hCompiles, hNothing⟩ := compiles_to_nothing circuit state rfl
  obtain ⟨built, hBuilt⟩ := hCompiles.mpr (by decide +kernel)
  refine ⟨rfl, ⟨built, hBuilt, hNothing built hBuilt⟩, ?_⟩
  have hWrong : ∀ last ∈ [ConstantStep.assert (.range 8 2 .single) none, .inv 10 none],
      ¬ CorrectFrom (circuit ++ [last]) [] := by decide +kernel
  intro last hLast built hBuilt
  apply hWrong last hLast
  exact (compiles_to_nothing (circuit ++ [last]) state rfl).2.1.mp ⟨built, hBuilt⟩

end ConstantCircuit

end ArithCircuit
