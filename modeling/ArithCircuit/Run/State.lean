import ArithCircuit.Circuit.Compile
import ArithCircuit.Circuit.Witness
import ArithCircuit.Stateful

/-!
The state of a run. A circuit is executed in a mode that decides whether values are computed and
whether constraints are recorded. Entering a mode swaps in a fresh frame, and the guard of the mode
keeps the one that was live before. Dropping the guard swaps it back. Settings outlive both.
-/

namespace ArithCircuit

/-- The part of a run that belongs to one mode. -/
structure Frame (p : Nat) where
  mode : Mode
  table : VariableTable p
  recording : Option (Recording p)
  blockDepth : Nat

/-- The state of a run. -/
structure RunState (p : Nat) where
  mode : Mode
  table : VariableTable p
  /-- The constraints recorded so far, in the modes that record. -/
  recording : Option (Recording p)
  /-- The settings of recordings that start from now on. -/
  settings : Settings
  /-- Whether the prover checks each constraint as it is added. -/
  checking : Bool
  /-- The number of prover blocks being executed. -/
  blockDepth : Nat

/-- What holds the frame that was live before a mode was entered, as long as the mode lasts. -/
structure Guard (p : Nat) where
  saved : Option (Frame p)

/-- What a computation of values can see. -/
structure Env (p : Nat) where
  read : Expr p → Except Fault (Residue p)
  inBlock : Bool

/-- An operation of a run. -/
abbrev Action (p : Nat) := Stateful (RunState p)

namespace Frame

variable {p : Nat} [Modulus p]

/-- The frame outside of all modes. -/
def idle : Frame p := ⟨.idle, .empty, none, 0⟩

/-- The frame with which a mode starts. -/
def fresh (mode : Mode) (settings : Settings) : Frame p :=
  ⟨mode, .empty, if mode.records then some (.start settings) else none, 0⟩

end Frame

namespace RunState

variable {p : Nat} [Modulus p]

/-- A run that has not started. -/
def idle (settings : Settings) : RunState p := ⟨.idle, .empty, none, settings, true, 0⟩

/-- The live frame. -/
def frame (state : RunState p) : Frame p :=
  ⟨state.mode, state.table, state.recording, state.blockDepth⟩

/-- Make a frame the live one. The frame that was live is handed out. -/
def swapFrame (state : RunState p) (frame : Frame p) : Frame p × RunState p :=
  (state.frame, { state with
    mode := frame.mode
    table := frame.table
    recording := frame.recording
    blockDepth := frame.blockDepth })

/-- Whether gadgets fold constants: the settings of the recording decide, if there is one. -/
def foldConstants (state : RunState p) : Bool :=
  match state.recording with
  | some recording => recording.settings.foldConstants
  | none => state.settings.foldConstants

/-- The value of an expression. -/
def read (state : RunState p) (e : Expr p) : Except Fault (Residue p) :=
  if state.mode.hasWitness then e.eval state.table.value
  else .error (.wrongMode .readValue state.mode)

/-- Whether a prover block is being executed. -/
def inBlock (state : RunState p) : Bool := 0 < state.blockDepth

/-- What computations of values see. -/
def env (state : RunState p) : Env p := ⟨state.read, state.inBlock⟩

/-- The values computed so far. -/
def witness (state : RunState p) : Witness p :=
  ⟨state.table.values, state.table.publicCount⟩

/-- The circuit recorded so far. The recording itself goes on unchanged. -/
def compile (state : RunState p) : Except Stop (Circuit p) :=
  match state.recording with
  | none => .error (.fault .nothingRecorded)
  | some recording => (recording.finalize state.table).1

/-- Change the table of the live frame. -/
def modifyTable (f : VariableTable p → VariableTable p) : RunState p → RunState p
  | ⟨mode, table, recording, settings, checking, blockDepth⟩ =>
    ⟨mode, f table, recording, settings, checking, blockDepth⟩

/-- Add variables with the given values; they are numbered in order. -/
def allocAll (alloc : VariableTable p → Option (Residue p) → VariableTable p)
    (state : RunState p) (values : List (Option (Residue p))) : List (Expr p) × RunState p :=
  let first := state.table.size
  ((List.range values.length).map fun i => .var (first + i),
    state.modifyTable fun table => values.foldl alloc table)

end RunState

namespace Guard

variable {p : Nat} [Modulus p]

/-- Enter a mode: its guard, and the state in which a fresh frame is live. -/
def enter (mode : Mode) (state : RunState p) : Guard p × RunState p :=
  let (saved, state) := state.swapFrame (.fresh mode state.settings)
  (⟨some saved⟩, state)

/-- Leave a mode: the frame that the guard holds becomes the live one again. -/
def drop (guard : Guard p) (state : RunState p) : RunState p :=
  match guard.saved with
  | some saved => (state.swapFrame saved).2
  | none => state

end Guard

namespace Action

variable {p : Nat} [Modulus p] {α : Type}

/-- Execute a body in a mode of its own. The guard of the mode is dropped when the body has
returned, when it was refused and when it gave up. -/
def within (mode : Mode) (body : Action p α) : Action p α := fun state =>
  let (guard, state) := Guard.enter mode state
  match body state with
  | (.ok a, state) => (.ok a, guard.drop state)
  | (.error (.fault fault), state) => (.error (.fault fault), guard.drop state)
  | (.error .abort, state) => (.error .abort, guard.drop state)

/-- Discard the frame of the current mode. -/
def reset : Action p Unit := Stateful.update fun state => (state.swapFrame .idle).2

/-- Choose the settings of recordings that start from now on. -/
def setSettings (settings : Settings) : Action p Unit :=
  Stateful.update fun state => { state with settings := settings }

/-- Choose whether the prover checks each constraint as it is added. -/
def setChecking (checking : Bool) : Action p Unit :=
  Stateful.update fun state => { state with checking := checking }

/-- An operation that is refused outside of all modes. -/
def inMode (operation : Operation) (body : Action p α) : Action p α := fun state =>
  if state.mode = .idle then Stateful.refuse (.wrongMode operation state.mode) state
  else body state

/-- Declare `count` public inputs, before any other variable. Their values are needed in the
modes that compute values, and ignored in the others. -/
def declarePublic (count : Nat) (values : Option (List (Residue p))) :
    Action p (List (Expr p)) :=
  inMode .declarePublic fun state =>
    let table := state.table
    if table.size ≠ table.publicCount then Stateful.refuse (.publicAfterPrivate table.size) state
    else if state.mode.hasWitness then
      let given := values.getD []
      if given.length ≠ count then Stateful.refuse (.publicCount given.length count) state
      else
        let (vars, state) := state.allocAll .allocPublic (given.map some)
        (.ok vars, state)
    else
      let (vars, state) := state.allocAll .allocPublic (List.replicate count none)
      (.ok vars, state)

/-- Allocate a variable without a value. -/
def allocate : Action p (Expr p) :=
  inMode .allocate fun state =>
    (.ok (.var state.table.size), state.modifyTable fun table => table.alloc none)

/-- Introduce `count` variables whose values are computed together. The computation is carried
out only in the modes that compute values. -/
def introduce (count : Nat) (values : Env p → Except Stop (List (Residue p))) :
    Action p (List (Expr p)) :=
  inMode .introduce fun state =>
    if state.mode.hasWitness then
      match values state.env with
      | .error stop => (.error stop, state)
      | .ok given =>
        if given.length ≠ count then Stateful.refuse (.valueCount given.length count) state
        else
          let (vars, state) := state.allocAll .alloc (given.map some)
          (.ok vars, state)
    else
      let (vars, state) := state.allocAll .alloc (List.replicate count none)
      (.ok vars, state)

/-- Introduce one variable. -/
def compute (value : Env p → Except Stop (Residue p)) : Action p (Expr p) := do
  let vars ← introduce 1 fun env => (value env).map fun x => [x]
  match vars with
  | [x] => return x
  | vars => Stateful.refuse (.valueCount vars.length 1)

/-- Execute a block that may look at values and adds nothing to the circuit. It is passed over in
the modes without values. A block that gives up does not count as ended. -/
def proverBlock (block : Env p → Except Stop α) : Action p (Option α) :=
  inMode .proverBlock fun state =>
    if state.mode.hasWitness then
      let inside := { state with blockDepth := state.blockDepth + 1 }
      match block inside.env with
      | .ok a => (.ok (some a), state)
      | .error (.fault fault) => (.error (.fault fault), state)
      | .error .abort => (.error .abort, inside)
    else (.ok none, state)

/-- Whether constraints are checked as they are added. -/
def checks (state : RunState p) : Bool :=
  match state.mode with
  | .witnessGeneration => true
  | .prover => state.checking
  | .idle | .constraintGeneration => false

/-- Record a constraint that has been checked, in the modes that record. -/
def record (assertion : Assertion p) : Action p Unit
  | ⟨mode, table, none, settings, checking, blockDepth⟩ =>
    (.ok (), ⟨mode, table, none, settings, checking, blockDepth⟩)
  | ⟨mode, table, some recording, settings, checking, blockDepth⟩ =>
    let (result, recording, table) := recording.add table assertion
    (result, ⟨mode, table, some recording, settings, checking, blockDepth⟩)

/-- Add a constraint: check it against the values and record it, each in the modes that do. -/
def constrain (constraint : Constraint p) (label : Option String) : Action p Unit :=
  inMode .constrain fun state =>
    match constraint.checkArity with
    | .error fault => Stateful.refuse fault state
    | .ok () =>
      let checked := if checks state then constraint.check label state.read else .ok ()
      match checked with
      | .error fault => Stateful.refuse fault state
      | .ok () => record ⟨label, constraint⟩ state

/-- Close the recording and lower it. -/
def finishCircuit : Action p (Circuit p) := fun state =>
  match state.recording with
  | none => Stateful.refuse .nothingRecorded state
  | some recording =>
    let (result, table) := recording.finalize state.table
    (result, { state with table := table, recording := none })

/-- The values computed, at the end of a mode. -/
def finishWitness : Action p (Witness p) := Stateful.inspect fun state => .ok state.witness

/-- The circuit that a body builds. -/
def circuitOf (body : Action p Unit) : Action p (Circuit p) :=
  within .constraintGeneration do
    body
    finishCircuit

/-- The witness that a body computes. -/
def witnessOf (body : Action p Unit) : Action p (Witness p) :=
  within .witnessGeneration do
    body
    finishWitness

/-- The circuit that a body builds and the witness that it computes. -/
def prove (body : Action p Unit) : Action p (Circuit p × Witness p) :=
  within .prover do
    body
    let witness ← finishWitness
    let circuit ← finishCircuit
    return (circuit, witness)

end Action

end ArithCircuit
