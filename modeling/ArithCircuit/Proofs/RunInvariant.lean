import ArithCircuit.Proofs.Constraint
import ArithCircuit.Run.Gadget

/-! What every operation of a run keeps. The operations are made of allocation and of constraints,
so an invariant of these two is an invariant of all of them, whether they succeed or are refused
half way. -/
namespace ArithCircuit

namespace RunState

variable {p : Nat}

/-- The state in which a mode starts. -/
def enter (state : RunState p) (mode : Mode) : RunState p := (Guard.enter mode state).2

/-- The state in which the frame of an earlier one is live again. -/
def backTo (state earlier : RunState p) : RunState p := (state.swapFrame earlier.frame).2

end RunState

namespace Action

variable {p : Nat} [Modulus p] {state next : RunState p} {constraint : Constraint p}
  {label : Option String}

/-- A constraint is refused before anything changes, or recorded after its check has passed. -/
theorem constrain_cases (state : RunState p) (constraint : Constraint p) (label : Option String) :
    (∃ fault, constrain constraint label state = (.error (.fault fault), state) ∧
      (state.mode = .idle ∨ constraint.checkArity = .error fault ∨
        checks state = true ∧ constraint.check label state.read = .error fault)) ∨
    (state.mode ≠ .idle ∧ constraint.checkArity = .ok () ∧
      (checks state = true → constraint.check label state.read = .ok ()) ∧
      constrain constraint label state = record ⟨label, constraint⟩ state) := by
  simp only [constrain, inMode]
  by_cases hIdle : state.mode = .idle
  · rw [if_pos hIdle]
    exact .inl ⟨_, rfl, .inl hIdle⟩
  rw [if_neg hIdle]
  cases hArity : constraint.checkArity with
  | error fault => exact .inl ⟨fault, rfl, .inr (.inl rfl)⟩
  | ok _ =>
      by_cases hChecks : checks state = true
      · rw [if_pos hChecks]
        cases hCheck : constraint.check label state.read with
        | error fault => exact .inl ⟨fault, rfl, .inr (.inr ⟨hChecks, rfl⟩)⟩
        | ok _ => exact .inr ⟨hIdle, rfl, fun _ => rfl, rfl⟩
      · rw [if_neg hChecks]
        exact .inr ⟨hIdle, rfl, fun hOn => absurd hOn hChecks, rfl⟩

/-- A constraint is added when it fits its kind, passes its check if there is one, and is
recorded. -/
theorem constrain_eq_ok_iff : constrain constraint label state = (.ok (), next) ↔
    state.mode ≠ .idle ∧ constraint.checkArity = .ok () ∧
      (checks state = true → constraint.check label state.read = .ok ()) ∧
      record ⟨label, constraint⟩ state = (.ok (), next) := by
  rcases constrain_cases state constraint label with
    ⟨fault, hRefused, hCause⟩ | ⟨hMode, hArity, hCheck, hRecord⟩
  · rw [hRefused]
    constructor
    · intro h
      cases h
    · rintro ⟨hMode, hArity, hCheck, -⟩
      rcases hCause with hIdle | hFault | ⟨hChecks, hFault⟩
      · exact absurd hIdle hMode
      · rw [hArity] at hFault
        cases hFault
      · rw [hCheck hChecks] at hFault
        cases hFault
  · rw [hRecord]
    exact ⟨fun h => ⟨hMode, hArity, hCheck, h⟩, fun h => h.2.2.2⟩

theorem record_of_some {recording : Recording p} (h : state.recording = some recording)
    (assertion : Assertion p) : record assertion state =
      ((recording.add state.table assertion).1,
        { state with
          table := (recording.add state.table assertion).2.2
          recording := some (recording.add state.table assertion).2.1 }) := by
  obtain ⟨mode, table, _, settings, checking, blockDepth⟩ := state
  cases h
  rfl

theorem record_of_none (h : state.recording = none) (assertion : Assertion p) :
    record assertion state = (.ok (), state) := by
  obtain ⟨mode, table, _, settings, checking, blockDepth⟩ := state
  cases h
  rfl

omit [Modulus p] in
/-- On each of the ways out of a mode its guard puts back the frame that was live before. -/
theorem within_eq {α : Type} (mode : Mode) (body : Action p α) (state : RunState p) :
    within mode body state =
      ((body (state.enter mode)).1, (body (state.enter mode)).2.backTo state) := by
  have hEnter : Guard.enter mode state = (⟨some state.frame⟩, state.enter mode) := rfl
  rw [within, hEnter]
  dsimp only
  rcases body (state.enter mode) with ⟨(fault | _) | a, inner⟩
  · rfl
  · rfl
  · rfl

end Action

/-- In the modes that compute values, expressions are read off the table. -/
theorem RunState.read_eq_eval {p : Nat} [Modulus p] {state : RunState p}
    (h : state.mode.hasWitness = true) :
    state.read = fun e => e.eval state.table.value :=
  funext fun _ => if_pos h

/-- Variables with these values can be allocated: some mode is live, and without values in the modes
that compute none. -/
def Mode.Allocates {p : Nat} (mode : Mode) (values : List (Option (Residue p))) : Prop :=
  mode ≠ .idle ∧ (mode.hasWitness = false → ∀ value ∈ values, value = none)

namespace Mode.Allocates

variable {p : Nat} {mode : Mode}

theorem of_hasWitness (hActive : mode ≠ .idle) (hWitness : mode.hasWitness = true)
    (values : List (Option (Residue p))) : mode.Allocates values := by
  refine ⟨hActive, fun hNone => ?_⟩
  rw [hWitness] at hNone
  cases hNone

theorem replicate (hActive : mode ≠ .idle) (count : Nat) :
    mode.Allocates (List.replicate count (none : Option (Residue p))) :=
  ⟨hActive, fun _ _ hValue => List.eq_of_mem_replicate hValue⟩

end Mode.Allocates

/-- A property of states that allocation and constraints keep. Public inputs are allocated before
other variables, and with values in the modes that compute values. -/
structure RunState.Invariant {p : Nat} [Modulus p] (I : RunState p → Prop) : Prop where
  alloc : ∀ {state} {values : List (Option (Residue p))}, I state →
    state.mode.Allocates values → I (state.allocAll .alloc values).2
  allocPublic : ∀ {state} {values : List (Option (Residue p))}, I state →
    state.mode.Allocates values →
    state.table.size = state.table.publicCount →
    (state.mode.hasWitness = true → ∃ given : List (Residue p), values = given.map some) →
    I (state.allocAll .allocPublic values).2
  constrain : ∀ {state} {constraint : Constraint p} (label : Option String), I state →
    constraint.isChecked = true → I (Action.constrain constraint label state).2

/-- The operation keeps the property, whether it succeeds or not. -/
def Action.Keeps {p : Nat} {α : Type} (I : RunState p → Prop) (action : Action p α) : Prop :=
  ∀ state, I state → I (action state).2

namespace Action.Keeps

variable {p : Nat} {α β : Type} {I : RunState p → Prop}

theorem ret (a : α) : Keeps I (pure a) := fun _ h => h

theorem refuse (fault : Fault) : Keeps I (Stateful.refuse fault : Action p α) := fun _ h => h

theorem andThen {action : Action p α} {next : α → Action p β} (h : action.Keeps I)
    (hNext : ∀ a, (next a).Keeps I) : Keeps I (action >>= next) := by
  intro state hState
  have hFirst := h state hState
  rcases hResult : action state with ⟨_ | a, middle⟩
  · simpa only [bind, Stateful.andThen, hResult] using hFirst
  · rw [hResult] at hFirst
    simpa only [bind, Stateful.andThen, hResult] using hNext a middle hFirst

theorem inMode {operation : Operation} {body : Action p α}
    (h : ∀ state, state.mode ≠ .idle → I state → I (body state).2) :
    Keeps I (Action.inMode operation body) := by
  intro state hState
  rw [Action.inMode]
  split_ifs with hIdle
  · exact hState
  · exact h state hIdle hState

end Action.Keeps

namespace RunState.Invariant

variable {p : Nat} [Modulus p] {I : RunState p → Prop} (hI : RunState.Invariant I)
include hI

theorem declarePublic (count : Nat) (values : Option (List (Residue p))) :
    (Action.declarePublic count values).Keeps I := by
  refine .inMode fun state hActive hState => ?_
  dsimp only
  split_ifs with hPrivate hWitness hCount
  · exact hState
  · exact hState
  · exact hI.allocPublic hState (.of_hasWitness hActive hWitness _) (not_not.mp hPrivate)
      fun _ => ⟨_, rfl⟩
  · exact hI.allocPublic hState (.replicate hActive count) (not_not.mp hPrivate)
      fun h => absurd h hWitness

theorem allocate : (Action.allocate : Action p (Expr p)).Keeps I :=
  .inMode fun _ hActive hState => hI.alloc hState (.replicate hActive 1)

theorem introduce (count : Nat) (values : Env p → Except Stop (List (Residue p))) :
    (Action.introduce count values).Keeps I := by
  refine .inMode fun state hActive hState => ?_
  dsimp only
  split_ifs with hWitness
  · split
    · exact hState
    · split_ifs
      · exact hState
      · exact hI.alloc hState (.of_hasWitness hActive hWitness _)
  · exact hI.alloc hState (.replicate hActive count)

theorem compute (value : Env p → Except Stop (Residue p)) : (Action.compute value).Keeps I := by
  refine (hI.introduce 1 _).andThen fun vars => ?_
  split
  · exact .ret _
  · exact .refuse _

theorem checked {constraint : Constraint p} (hChecked : constraint.isChecked = true)
    (label : Option String) : (Action.constrain constraint label).Keeps I :=
  fun _ hState => hI.constrain label hState hChecked

theorem freshProduct (a b : Expr p) (label : Option String) :
    (Gadget.freshProduct a b label).Keeps I :=
  (hI.compute _).andThen fun _ => (hI.checked rfl _).andThen fun _ => .ret _

theorem mul (a b : Expr p) (label : Option String) : (Gadget.mul a b label).Keeps I := by
  intro state hState
  unfold Gadget.mul
  split_ifs
  · split
    · exact hState
    · exact hState
    · exact hState
    · exact hI.freshProduct _ _ label state hState
  · exact hI.freshProduct a b label state hState

theorem freshSquare (a : Expr p) (label : Option String) : (Gadget.freshSquare a label).Keeps I :=
  (hI.compute _).andThen fun _ => (hI.checked rfl _).andThen fun _ => .ret _

theorem square (a : Expr p) (label : Option String) : (Gadget.square a label).Keeps I := by
  intro state hState
  unfold Gadget.square
  split
  · split_ifs
    · exact hState
    · exact hI.freshSquare _ label state hState
  · exact hI.freshSquare _ label state hState

theorem freshInverse (a : Expr p) (label : String) : (Gadget.freshInverse a label).Keeps I :=
  (hI.compute _).andThen fun _ => (hI.checked rfl _).andThen fun _ => .ret _

theorem inv (a : Expr p) (label : Option String) : (Gadget.inv a label).Keeps I := by
  intro state hState
  unfold Gadget.inv
  split
  · split_ifs
    · split
      · exact hState
      · exact hState
    · exact hI.freshInverse _ _ state hState
  · exact hI.freshInverse _ _ state hState

theorem div (a b : Expr p) (label : Option String) : (Gadget.div a b label).Keeps I :=
  (hI.inv b label).andThen fun inverse => hI.mul a inverse label

theorem isZero (z : Expr p) : (Gadget.isZero z).Keeps I := by
  refine (hI.introduce 2 _).andThen fun vars => ?_
  split
  · exact (hI.checked rfl _).andThen fun _ => (hI.checked rfl _).andThen fun _ => .ret _
  · exact .refuse _

theorem equal (a b : Expr p) : (Gadget.equal a b).Keeps I := by
  unfold Gadget.equal
  split
  · exact .ret _
  · exact hI.isZero _

theorem select (condition yes no : Expr p) : (Gadget.select condition yes no).Keeps I := by
  unfold Gadget.select
  split_ifs
  · exact .ret yes
  · exact .ret no
  · exact (hI.mul _ _ _).andThen fun _ => .ret _

end RunState.Invariant

/-- An operation of a circuit, with its operands and what it computes. -/
inductive RunStep (p : Nat) where
  | declarePublic (count : Nat) (values : Option (List (Residue p)))
  | allocate
  | introduce (count : Nat) (values : Env p → Except Stop (List (Residue p)))
  | compute (value : Env p → Except Stop (Residue p))
  | mul (a b : Expr p) (label : Option String)
  | square (a : Expr p) (label : Option String)
  | inv (a : Expr p) (label : Option String)
  | div (a b : Expr p) (label : Option String)
  | equal (a b : Expr p)
  | select (condition yes no : Expr p)
  | constrain (constraint : Constraint p) (label : Option String)

namespace RunStep

variable {p : Nat} [Modulus p]

/-- The state after an operation, whether it succeeded or not. -/
def perform (state : RunState p) : RunStep p → RunState p
  | .declarePublic count values => (Action.declarePublic count values state).2
  | .allocate => (Action.allocate state).2
  | .introduce count values => (Action.introduce count values state).2
  | .compute value => (Action.compute value state).2
  | .mul a b label => (Gadget.mul a b label state).2
  | .square a label => (Gadget.square a label state).2
  | .inv a label => (Gadget.inv a label state).2
  | .div a b label => (Gadget.div a b label state).2
  | .equal a b => (Gadget.equal a b state).2
  | .select condition yes no => (Gadget.select condition yes no state).2
  | .constrain constraint label => (Action.constrain constraint label state).2

/-- Carry out operations one after the other. -/
def performAll (state : RunState p) (steps : List (RunStep p)) : RunState p :=
  steps.foldl perform state

/-- An invariant is kept by every operation, if it is kept by the constraints that the operation is
given. -/
theorem perform_keeps {I : RunState p → Prop} (hI : RunState.Invariant I) {state : RunState p}
    (h : I state) {step : RunStep p} (hConstrain : ∀ constraint label,
      step = .constrain constraint label → I (Action.constrain constraint label state).2) :
    I (step.perform state) := by
  cases step with
  | declarePublic count values => exact hI.declarePublic count values state h
  | allocate => exact hI.allocate state h
  | introduce count values => exact hI.introduce count values state h
  | compute value => exact hI.compute value state h
  | mul a b label => exact hI.mul a b label state h
  | square a label => exact hI.square a label state h
  | inv a label => exact hI.inv a label state h
  | div a b label => exact hI.div a b label state h
  | equal a b => exact hI.equal a b state h
  | select condition yes no => exact hI.select condition yes no state h
  | constrain constraint label => exact hConstrain constraint label rfl

end RunStep

end ArithCircuit
