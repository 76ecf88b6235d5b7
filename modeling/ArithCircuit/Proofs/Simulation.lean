import ArithCircuit.Proofs.ProverRun

/-! Simulation of runs. Two states are related as long as every operation that returns from the
first returns the same from the second. For this it suffices to look at the few operations that the
others are made of: allocation, blocks, and constraints. A straight-line circuit is then followed
step by step. -/
namespace ArithCircuit

/-- Where the first action returns, the second one returns the same, and related states stay
related. -/
def Action.Follows {p : Nat} {α : Type} (R : RunState p → RunState p → Prop)
    (first second : Action p α) : Prop :=
  ∀ s t a s', R s t → first s = (.ok a, s') → ∃ t', second t = (.ok a, t') ∧ R s' t'

namespace Action.Follows

variable {p : Nat} {α β : Type} {R : RunState p → RunState p → Prop}

theorem ret (a : α) : Follows R (pure a) (pure a) := by
  intro s t b s' hR h
  cases h
  exact ⟨t, rfl, hR⟩

theorem refuse (fault : Fault) (second : Action p α) :
    Follows R (Stateful.refuse fault) second := by
  intro s t a s' hR h
  cases h

theorem andThen {first second : Action p α} {next next' : α → Action p β}
    (h : Follows R first second) (hNext : ∀ a, Follows R (next a) (next' a)) :
    Follows R (first >>= next) (second >>= next') := by
  intro s t b s' hR hRun
  simp only [bind, Stateful.andThen] at hRun
  rcases hFirst : first s with ⟨stop | a, middle⟩
  · rw [hFirst] at hRun
    cases hRun
  · rw [hFirst] at hRun
    obtain ⟨middle', hSecond, hMiddle⟩ := h s t a middle hR hFirst
    obtain ⟨t', hRest, hEnd⟩ := hNext a middle middle' b s' hMiddle hRun
    refine ⟨t', ?_, hEnd⟩
    simp only [bind, Stateful.andThen, hSecond, hRest]

end Action.Follows

/-- A relation of states under which every operation of a circuit is followed. What the second
state computes, it computes from the same values as the first. -/
structure RunState.Simulates {p : Nat} [Modulus p] (R : RunState p → RunState p → Prop) :
    Prop where
  active : ∀ {s t}, R s t → s.mode ≠ .idle ∧ t.mode ≠ .idle
  hasWitness : ∀ {s t}, R s t → s.mode.hasWitness = true
  foldConstants : ∀ {s t}, R s t → s.foldConstants = t.foldConstants
  size : ∀ {s t}, R s t → s.table.size = t.table.size
  publicCount : ∀ {s t}, R s t → s.table.publicCount = t.table.publicCount
  read : ∀ {s t}, R s t → t.mode.hasWitness = true → s.read = t.read
  blockDepth : ∀ {s t}, R s t → t.mode.hasWitness = true →
    s.blockDepth = t.blockDepth
  alloc : ∀ {s t value value'}, R s t → (t.mode.hasWitness = true → value = value') →
    R (s.modifyTable fun table => table.alloc value)
      (t.modifyTable fun table => table.alloc value')
  allocPublic : ∀ {s t value value'}, R s t →
    (t.mode.hasWitness = true → value = value') →
    R (s.modifyTable fun table => table.allocPublic value)
      (t.modifyTable fun table => table.allocPublic value')
  constrain : ∀ constraint label,
    Action.Follows R (Action.constrain constraint label) (Action.constrain constraint label)

/-- The values of variables that are introduced together, in the modes that have values. -/
def RunState.valuesOf {p : Nat} (state : RunState p) (given : List (Residue p)) :
    List (Option (Residue p)) :=
  if state.mode.hasWitness then given.map some else List.replicate given.length none

/-- Inside a block the values are those outside. -/
theorem RunState.blockEnv {p : Nat} [Modulus p] (state : RunState p) :
    RunState.env { state with blockDepth := state.blockDepth + 1 } = ⟨state.read, true⟩ := by
  have hInside : decide (0 < state.blockDepth + 1) = true :=
    decide_eq_true (Nat.succ_pos _)
  rw [env, inBlock, hInside]
  rfl

namespace RunState.Simulates

variable {p : Nat} [Modulus p] {R : RunState p → RunState p → Prop} {s t : RunState p} {α : Type}

omit [Modulus p] in
/-- Allocating several variables, one after the other. -/
theorem allocAll {alloc : VariableTable p → Option (Residue p) → VariableTable p}
    (hAlloc : ∀ {s t value value'}, R s t → (t.mode.hasWitness = true → value = value') →
      R (s.modifyTable fun table => alloc table value)
        (t.modifyTable fun table => alloc table value'))
    (hR : R s t) {values values' : List (Option (Residue p))}
    (hValues : List.Forall₂ (fun value value' => t.mode.hasWitness = true → value = value')
      values values') :
    R (s.allocAll alloc values).2 (t.allocAll alloc values').2 := by
  have hFold {values values' : List (Option (Residue p))} (b : Bool)
      (hValues : List.Forall₂ (fun value value' => b = true → value = value') values values') :
      ∀ s t, R s t → t.mode.hasWitness = b →
        R (s.modifyTable fun table => values.foldl alloc table)
          (t.modifyTable fun table => values'.foldl alloc table) := by
    induction hValues with
    | nil => exact fun _ _ hR _ => hR
    | cons hHead _ ih =>
        intro s t hR hMode
        exact ih _ _ (hAlloc hR fun hWitness => hHead (hMode ▸ hWitness)) hMode
  exact hFold _ hValues s t hR rfl

variable (h : Simulates R)
include h

theorem inMode {operation : Operation} {body body' : Action p α}
    (hBody : Action.Follows R body body') :
    Action.Follows R (Action.inMode operation body) (Action.inMode operation body') := by
  intro s t a s' hR hRun
  rw [Action.inMode, if_neg (h.active hR).1] at hRun
  rw [Action.inMode, if_neg (h.active hR).2]
  exact hBody s t a s' hR hRun

/-- New variables have the same names, and their values agree where there are values. -/
theorem allocAll_given {alloc : VariableTable p → Option (Residue p) → VariableTable p}
    (hAlloc : ∀ {s t value value'}, R s t → (t.mode.hasWitness = true → value = value') →
      R (s.modifyTable fun table => alloc table value)
        (t.modifyTable fun table => alloc table value'))
    (hR : R s t) (given : List (Residue p)) :
    (s.allocAll alloc (given.map some)).1 = (t.allocAll alloc (t.valuesOf given)).1 ∧
      R (s.allocAll alloc (given.map some)).2 (t.allocAll alloc (t.valuesOf given)).2 := by
  rw [valuesOf]
  split_ifs with hWitness
  · refine ⟨by simp only [RunState.allocAll, h.size hR], allocAll hAlloc hR ?_⟩
    exact List.forall₂_same.mpr fun _ _ _ => rfl
  · refine ⟨by simp [RunState.allocAll, h.size hR], allocAll hAlloc hR ?_⟩
    rw [List.forall₂_iff_get]
    exact ⟨by simp, fun i _ _ hBlind => absurd hBlind hWitness⟩

theorem declarePublic (count : Nat) (values : Option (List (Residue p))) :
    Action.Follows R (Action.declarePublic count values) (Action.declarePublic count values) := by
  apply h.inMode
  intro s t a s' hR hRun
  obtain ⟨hVars, hNext⟩ := h.allocAll_given h.allocPublic hR (values.getD [])
  simp only [h.hasWitness hR, if_true] at hRun
  rw [h.size hR, h.publicCount hR] at hRun
  split_ifs at hRun with hFirst hCount
  · cases hRun
  · cases hRun
  · cases hRun
    refine ⟨_, ?_, hNext⟩
    rw [hVars, valuesOf]
    dsimp only
    rw [if_neg hFirst]
    split_ifs with hWitness
    · rfl
    · rw [not_not.mp hCount]

theorem allocate : Action.Follows R Action.allocate (Action.allocate : Action p (Expr p)) := by
  apply h.inMode
  intro s t a s' hR hRun
  cases hRun
  exact ⟨_, by rw [h.size hR], h.alloc hR fun _ => rfl⟩

theorem env (hR : R s t) (hWitness : t.mode.hasWitness = true) : s.env = t.env := by
  rw [RunState.env, RunState.env, h.read hR hWitness, RunState.inBlock, RunState.inBlock,
    h.blockDepth hR hWitness]

theorem introduce (count : Nat) (values : Env p → Except Stop (List (Residue p))) :
    Action.Follows R (Action.introduce count values) (Action.introduce count values) := by
  apply h.inMode
  intro s t a s' hR hRun
  simp only [h.hasWitness hR, if_true] at hRun
  split at hRun
  · cases hRun
  · rename_i given hGiven
    obtain ⟨hVars, hNext⟩ := h.allocAll_given h.alloc hR given
    split_ifs at hRun with hCount
    · cases hRun
    · cases hRun
      refine ⟨_, ?_, hNext⟩
      rw [hVars, valuesOf]
      dsimp only
      split_ifs with hWitness
      · rw [← h.env hR hWitness, hGiven]
        simp only [if_neg hCount]
      · rw [not_not.mp hCount]

theorem compute (value : Env p → Except Stop (Residue p)) :
    Action.Follows R (Action.compute value) (Action.compute value) := by
  refine (h.introduce 1 _).andThen fun vars => ?_
  split
  · exact .ret _
  · exact .refuse _ _

/-- A block is executed where there are values, and leaves nothing behind. -/
theorem proverBlock (block : Env p → Except Stop Unit) (a : α) :
    Action.Follows R (do let _ ← Action.proverBlock block; return a)
      (do let _ ← Action.proverBlock block; return a) := by
  intro s t b s' hR hRun
  obtain ⟨hActive, hActive'⟩ := h.active hR
  simp only [bind, Stateful.andThen, Action.proverBlock, Action.inMode, if_neg hActive,
    if_neg hActive', h.hasWitness hR, if_true, blockEnv] at hRun ⊢
  rcases hBlock : block ⟨s.read, true⟩ with (fault | _) | _
  · rw [hBlock] at hRun
    cases hRun
  · rw [hBlock] at hRun
    cases hRun
  · rw [hBlock] at hRun
    cases hRun
    split_ifs with hWitness
    · rw [← h.read hR hWitness, hBlock]
      exact ⟨t, rfl, hR⟩
    · exact ⟨t, rfl, hR⟩

end RunState.Simulates

namespace Gadget

variable {p : Nat} [Modulus p] {R : RunState p → RunState p → Prop}

/-- Folding decides between a result that needs no variable and a new variable. -/
def Folds (gadget fresh : Action p (Expr p)) : Prop :=
  ∀ fold, (∃ result, ∀ state : RunState p, state.foldConstants = fold →
      gadget state = (result, state)) ∨
    ∀ state : RunState p, state.foldConstants = fold → gadget state = fresh state

theorem Folds.follows (h : RunState.Simulates R) {gadget fresh : Action p (Expr p)}
    (hFolds : Folds gadget fresh) (hFresh : Action.Follows R fresh fresh) :
    Action.Follows R gadget gadget := by
  intro s t a s' hR hRun
  have hFold := h.foldConstants hR
  rcases hFolds t.foldConstants with ⟨result, hResult⟩ | hNew
  · rw [hResult s hFold] at hRun
    cases hRun
    exact ⟨t, hResult t rfl, hR⟩
  · rw [hNew s hFold] at hRun
    rw [hNew t rfl]
    exact hFresh s t a s' hR hRun

theorem mul_folds (a b : Expr p) (label : Option String) :
    Folds (mul a b label) (freshProduct a b label) := by
  intro fold
  cases fold with
  | false => exact .inr fun state hFold => by simp only [mul, hFold]; rfl
  | true =>
      cases a with
      | const x =>
          cases b with
          | _ => exact .inl ⟨_, fun state hFold => by simp only [mul, hFold]; rfl⟩
      | _ =>
          cases b with
          | const y => exact .inl ⟨_, fun state hFold => by simp only [mul, hFold]; rfl⟩
          | _ => exact .inr fun state hFold => by simp only [mul, hFold]; rfl

theorem square_folds (a : Expr p) (label : Option String) :
    Folds (square a label) (freshSquare a label) := by
  intro fold
  cases a with
  | const x =>
      cases fold with
      | false => exact .inr fun state hFold => by simp only [square, hFold]; rfl
      | true => exact .inl ⟨_, fun state hFold => by rw [square, if_pos hFold]⟩
  | _ => exact .inr fun _ _ => rfl

theorem inv_folds (a : Expr p) (label : Option String) :
    Folds (inv a label) (freshInverse a (label.getD "field_inv")) := by
  intro fold
  cases a with
  | const x =>
      cases fold with
      | false => exact .inr fun state hFold => by simp only [inv, hFold]; rfl
      | true =>
          cases hInverse : x.inv? with
          | none => exact .inl ⟨_, fun state hFold => by simp only [inv, hFold, hInverse]; rfl⟩
          | some y => exact .inl ⟨_, fun state hFold => by simp only [inv, hFold, hInverse]; rfl⟩
  | _ => exact .inr fun _ _ => rfl

end Gadget

namespace RunState.Simulates

variable {p : Nat} [Modulus p] {R : RunState p → RunState p → Prop} (h : Simulates R)
include h

theorem freshProduct (a b : Expr p) (label : Option String) :
    Action.Follows R (Gadget.freshProduct a b label) (Gadget.freshProduct a b label) :=
  (h.compute _).andThen fun _ => (h.constrain _ _).andThen fun _ => .ret _

theorem mul (a b : Expr p) (label : Option String) :
    Action.Follows R (Gadget.mul a b label) (Gadget.mul a b label) :=
  (Gadget.mul_folds a b label).follows h (h.freshProduct a b label)

theorem square (a : Expr p) (label : Option String) :
    Action.Follows R (Gadget.square a label) (Gadget.square a label) :=
  (Gadget.square_folds a label).follows h
    ((h.compute _).andThen fun _ => (h.constrain _ _).andThen fun _ => .ret _)

theorem inv (a : Expr p) (label : Option String) :
    Action.Follows R (Gadget.inv a label) (Gadget.inv a label) :=
  (Gadget.inv_folds a label).follows h
    ((h.compute _).andThen fun _ => (h.constrain _ _).andThen fun _ => .ret _)

theorem div (a b : Expr p) (label : Option String) :
    Action.Follows R (Gadget.div a b label) (Gadget.div a b label) :=
  (h.inv b label).andThen fun inverse => h.mul a inverse label

theorem isZero (z : Expr p) : Action.Follows R (Gadget.isZero z) (Gadget.isZero z) := by
  refine (h.introduce 2 _).andThen fun vars => ?_
  split
  · exact (h.constrain _ _).andThen fun _ => (h.constrain _ _).andThen fun _ => .ret _
  · exact .refuse _ _

theorem equal (a b : Expr p) : Action.Follows R (Gadget.equal a b) (Gadget.equal a b) := by
  unfold Gadget.equal
  split
  · exact .ret _
  · exact h.isZero _

theorem select (condition yes no : Expr p) :
    Action.Follows R (Gadget.select condition yes no) (Gadget.select condition yes no) := by
  unfold Gadget.select
  split_ifs
  · exact .ret yes
  · exact .ret no
  · exact (h.mul _ _ _).andThen fun _ => .ret _

end RunState.Simulates

/-- A step of a circuit: an operation, or a block for the prover alone. -/
inductive CircuitStep (p : Nat) where
  | operate (step : RunStep p)
  | proverBlock (block : Env p → Except Stop Unit)

/-- Steps of the same shape: they differ at most in values given or computed. -/
inductive CircuitStep.Alike {p : Nat} : CircuitStep p → CircuitStep p → Prop
  | same (step : CircuitStep p) : Alike step step
  | declarePublic (count : Nat) (values values' : Option (List (Residue p))) :
    Alike (.operate (.declarePublic count values)) (.operate (.declarePublic count values'))
  | introduce (count : Nat) (values values' : Env p → Except Stop (List (Residue p))) :
    Alike (.operate (.introduce count values)) (.operate (.introduce count values'))
  | compute (value value' : Env p → Except Stop (Residue p)) :
    Alike (.operate (.compute value)) (.operate (.compute value'))
  | proverBlock (block block' : Env p → Except Stop Unit) :
    Alike (.proverBlock block) (.proverBlock block')

/-- A straight-line circuit. Each step is chosen by the results of all steps before it. -/
abbrev StraightLine (p : Nat) := List (List (Expr p) → CircuitStep p)

/-- Circuits of the same shape. -/
def StraightLine.Alike {p : Nat} (circuit other : StraightLine p) : Prop :=
  List.Forall₂ (fun step step' => ∀ results, (step results).Alike (step' results)) circuit other

section

variable {p : Nat} [Modulus p]

/-- The result of an operation on its own. -/
def Action.single (action : Action p (Expr p)) : Action p (List (Expr p)) := do
  let e ← action
  return [e]

/-- Execute an operation. Its results are the expressions that it returns. -/
def RunStep.action : RunStep p → Action p (List (Expr p))
  | .declarePublic count values => Action.declarePublic count values
  | .allocate => Action.single Action.allocate
  | .introduce count values => Action.introduce count values
  | .compute value => Action.single (Action.compute value)
  | .mul a b label => Action.single (Gadget.mul a b label)
  | .square a label => Action.single (Gadget.square a label)
  | .inv a label => Action.single (Gadget.inv a label)
  | .div a b label => Action.single (Gadget.div a b label)
  | .equal a b => Action.single (Gadget.equal a b)
  | .select condition yes no => Action.single (Gadget.select condition yes no)
  | .constrain constraint label => do
    Action.constrain constraint label
    return []

theorem RunStep.constrain_action (constraint : Constraint p) (label : Option String)
    (state : RunState p) : (RunStep.constrain constraint label).action state =
      ((Action.constrain constraint label state).1.map fun _ => [],
        (Action.constrain constraint label state).2) := by
  simp only [RunStep.action, bind, Stateful.andThen]
  rcases Action.constrain constraint label state with ⟨_ | _, next⟩
  · rfl
  · rfl

/-- What an operation returns is all that its execution adds to what it does. -/
theorem RunStep.action_state (step : RunStep p) (state : RunState p) :
    (step.action state).2 = step.perform state := by
  have hSingle (action : Action p (Expr p)) : (action.single state).2 = (action state).2 := by
    simp only [Action.single, bind, Stateful.andThen]
    rcases action state with ⟨_ | _, next⟩
    · rfl
    · rfl
  cases step with
  | declarePublic count values => rfl
  | introduce count values => rfl
  | constrain constraint label => rw [constrain_action, perform]
  | _ => exact hSingle _

/-- Execute a step. A block returns nothing to the circuit. -/
def CircuitStep.action : CircuitStep p → Action p (List (Expr p))
  | .operate step => step.action
  | .proverBlock block => do
    let _ ← Action.proverBlock block
    return []

/-- Execute the steps of a circuit after those with the given results. -/
def StraightLine.runFrom : StraightLine p → List (Expr p) → Action p Unit
  | [], _ => return ()
  | step :: rest, results => do
    let more ← (step results).action
    runFrom rest (results ++ more)

/-- Execute a circuit. -/
def StraightLine.run (circuit : StraightLine p) : Action p Unit := runFrom circuit []

variable {R : RunState p → RunState p → Prop}

theorem RunState.Simulates.step (h : Simulates R) (step : CircuitStep p) :
    Action.Follows R step.action step.action := by
  have hSingle {action : Action p (Expr p)} (hAction : Action.Follows R action action) :
      Action.Follows R action.single action.single :=
    hAction.andThen fun _ => .ret _
  cases step with
  | proverBlock block => exact h.proverBlock block []
  | operate step =>
      cases step with
      | declarePublic count values => exact h.declarePublic count values
      | allocate => exact hSingle h.allocate
      | introduce count values => exact h.introduce count values
      | compute value => exact hSingle (h.compute value)
      | mul a b label => exact hSingle (h.mul a b label)
      | square a label => exact hSingle (h.square a label)
      | inv a label => exact hSingle (h.inv a label)
      | div a b label => exact hSingle (h.div a b label)
      | equal a b => exact hSingle (h.equal a b)
      | select condition yes no => exact hSingle (h.select condition yes no)
      | constrain constraint label =>
          exact (h.constrain constraint label).andThen fun _ => .ret _

/-- A circuit is followed by another one if its steps are followed by theirs. -/
theorem StraightLine.runFrom_follows {circuit other : StraightLine p}
    (h : List.Forall₂ (fun step step' => ∀ results,
      Action.Follows R (step results).action (step' results).action) circuit other)
    (results : List (Expr p)) :
    Action.Follows R (circuit.runFrom results) (other.runFrom results) := by
  induction h generalizing results with
  | nil => exact .ret ()
  | cons hStep _ ih => exact (hStep results).andThen fun more => ih (results ++ more)

theorem StraightLine.run_follows (h : RunState.Simulates R) (circuit : StraightLine p) :
    Action.Follows R circuit.run circuit.run :=
  runFrom_follows (List.forall₂_same.mpr fun step _ results => h.step (step results)) []

end

end ArithCircuit
