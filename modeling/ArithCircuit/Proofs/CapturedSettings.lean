import ArithCircuit.Proofs.Reachable
import ArithCircuit.Proofs.Simulation

/-! Settings are captured when a mode is entered. A program in a mode chooses each call by the
answers to the calls before it, and may visit other modes in between. Changes of the settings are
inserted anywhere, also in the modes that it visits. Where a recording is going on, it decides
whether constants are folded, and nothing that the program learns depends on the changes. Two ways
are left by which they can make themselves felt. Where nothing is recorded, gadgets fold as the
settings say. And a visited mode records under the new settings, so that it may take another course
and leave another checking behind, at which a prover looks. -/
namespace ArithCircuit

namespace RunState

variable {p : Nat}

/-- Two states agree on what an operation looks at outside of the live frame: on the checking, where
a prover checks, and on the folding of constants, where no recording decides it. -/
structure Settled (s t : RunState p) : Prop where
  checking : t.mode = .prover → s.checking = t.checking
  folding : t.recording = none → s.settings.foldConstants = t.settings.foldConstants

/-- Two states that no operation can tell apart. -/
structure Concurs (s t : RunState p) : Prop extends Settled s t where
  frame : s.frame = t.frame

namespace Concurs

variable {s t : RunState p}

theorem mode (h : s.Concurs t) : s.mode = t.mode := congrArg Frame.mode h.frame

theorem table (h : s.Concurs t) : s.table = t.table := congrArg Frame.table h.frame

theorem recording (h : s.Concurs t) : s.recording = t.recording := congrArg Frame.recording h.frame

theorem blockDepth (h : s.Concurs t) : s.blockDepth = t.blockDepth :=
  congrArg Frame.blockDepth h.frame

theorem foldConstants [Modulus p] (h : s.Concurs t) : s.foldConstants = t.foldConstants := by
  rw [RunState.foldConstants, RunState.foldConstants, h.recording]
  cases hRecording : t.recording with
  | none => exact h.folding hRecording
  | some recording => rfl

theorem read (h : s.Concurs t) : s.read = t.read := by
  funext e
  rw [RunState.read, RunState.read, h.mode, h.table]

theorem inBlock (h : s.Concurs t) : s.inBlock = t.inBlock := by
  rw [RunState.inBlock, RunState.inBlock, h.blockDepth]

theorem env (h : s.Concurs t) : s.env = t.env := by
  rw [RunState.env, RunState.env, h.read, h.inBlock]

theorem checks (h : s.Concurs t) : Action.checks s = Action.checks t := by
  rw [Action.checks, Action.checks, h.mode]
  cases hMode : t.mode with
  | prover => exact h.checking hMode
  | _ => rfl

/-- States that concur go on to concur if their frames change alike, within the mode. -/
theorem change {s' t' : RunState p} (h : s.Concurs t) (hFrame : s'.frame = t'.frame)
    (hMode : t'.mode = t.mode) (hRecording : t'.recording = none → t.recording = none)
    (hChecking : s'.checking = s.checking ∧ t'.checking = t.checking)
    (hSettings : s'.settings = s.settings ∧ t'.settings = t.settings) : s'.Concurs t' where
  frame := hFrame
  checking hProver := by
    rw [hChecking.1, hChecking.2]
    exact h.checking (hMode.symm.trans hProver)
  folding hNone := by
    rw [hSettings.1, hSettings.2]
    exact h.folding (hRecording hNone)

end Concurs

end RunState

/-- The operation cannot tell states apart that concur. -/
def Action.Blind {p : Nat} {α : Type} (action : Action p α) : Prop :=
  ∀ s t : RunState p, s.Concurs t →
    (action s).1 = (action t).1 ∧ (action s).2.Concurs (action t).2

namespace Action.Blind

variable {p : Nat} {α β : Type}

theorem ret (a : α) : Blind (pure a : Action p α) := fun _ _ h => ⟨rfl, h⟩

theorem refuse (fault : Fault) : Blind (Stateful.refuse fault : Action p α) :=
  fun _ _ h => ⟨rfl, h⟩

theorem andThen {action : Action p α} {rest : α → Action p β} (h : action.Blind)
    (hRest : ∀ a, (rest a).Blind) : Blind (action >>= rest) := by
  intro s t hConcurs
  obtain ⟨hResult, hNext⟩ := h s t hConcurs
  rcases hFirst : action s with ⟨result, s'⟩
  rcases hOther : action t with ⟨result', t'⟩
  rw [hFirst, hOther] at hResult hNext
  subst hResult
  simp only [bind, Stateful.andThen, hFirst, hOther]
  cases result with
  | error stop => exact ⟨rfl, hNext⟩
  | ok a => exact hRest a s' t' hNext

theorem inMode {operation : Operation} {body : Action p α} (h : body.Blind) :
    Blind (Action.inMode operation body) := by
  intro s t hConcurs
  simp only [Action.inMode, hConcurs.mode]
  split_ifs
  · exact refuse _ s t hConcurs
  · exact h s t hConcurs

theorem single {action : Action p (Expr p)} (h : action.Blind) :
    action.single.Blind :=
  h.andThen fun _ => ret _

/-- New variables are the same, whatever the settings. -/
theorem allocAll (alloc : VariableTable p → Option (Residue p) → VariableTable p)
    (values : List (Option (Residue p))) :
    Blind fun state : RunState p =>
      (.ok (state.allocAll alloc values).1, (state.allocAll alloc values).2) := by
  intro s t h
  constructor
  · simp only [RunState.allocAll, h.table]
  · refine h.change ?_ rfl id ⟨rfl, rfl⟩ ⟨rfl, rfl⟩
    simp only [RunState.allocAll, RunState.modifyTable, RunState.frame, h.mode, h.table,
      h.recording, h.blockDepth]

theorem declarePublic (count : Nat) (values : Option (List (Residue p))) :
    Blind (Action.declarePublic count values) := by
  refine inMode fun s t h => ?_
  simp only [h.mode, h.table]
  split_ifs
  · exact refuse _ s t h
  · exact refuse _ s t h
  · exact allocAll _ _ s t h
  · exact allocAll _ _ s t h

theorem allocate : Blind (Action.allocate : Action p (Expr p)) := by
  refine inMode fun s t h => ⟨?_, (allocAll .alloc [none] s t h).2⟩
  simp only [h.table]

theorem introduce (count : Nat) (values : Env p → Except Stop (List (Residue p))) :
    Blind (Action.introduce count values) := by
  refine inMode fun s t h => ?_
  simp only [h.mode, h.env]
  split_ifs
  · cases values t.env with
    | error stop => exact ⟨rfl, h⟩
    | ok given =>
        dsimp only
        split_ifs
        · exact refuse _ s t h
        · exact allocAll _ _ s t h
  · exact allocAll _ _ s t h

theorem compute (value : Env p → Except Stop (Residue p)) :
    Blind (Action.compute value) := by
  refine (introduce 1 _).andThen fun vars => ?_
  split
  · exact ret _
  · exact refuse _

variable [Modulus p]

theorem proverBlock (block : Env p → Except Stop α) : Blind (Action.proverBlock block) := by
  refine inMode fun s t h => ?_
  simp only [RunState.blockEnv, h.read]
  by_cases hWitness : t.mode.hasWitness = true
  · rw [if_pos (h.mode ▸ hWitness), if_pos hWitness]
    rcases block ⟨t.read, true⟩ with (fault | _) | a
    · exact ⟨rfl, h⟩
    · refine ⟨rfl, h.change ?_ rfl id ⟨rfl, rfl⟩ ⟨rfl, rfl⟩⟩
      simp only [RunState.frame, h.mode, h.table, h.recording, h.blockDepth]
    · exact ⟨rfl, h⟩
  · rw [if_neg (h.mode ▸ hWitness), if_neg hWitness]
    exact ⟨rfl, h⟩

theorem record (assertion : Assertion p) : Blind (Action.record assertion) := by
  intro s t h
  cases hRecording : t.recording with
  | none =>
      rw [record_of_none hRecording, record_of_none (h.recording.trans hRecording)]
      exact ⟨rfl, h⟩
  | some recording =>
      rw [record_of_some hRecording, record_of_some (h.recording.trans hRecording), h.table]
      refine ⟨rfl, h.change ?_ rfl (fun hNone => by cases hNone) ⟨rfl, rfl⟩ ⟨rfl, rfl⟩⟩
      simp only [RunState.frame, h.mode, h.blockDepth]

theorem constrain (constraint : Constraint p) (label : Option String) :
    Blind (Action.constrain constraint label) := by
  refine inMode fun s t h => ?_
  rw [h.checks, h.read]
  cases constraint.checkArity with
  | error fault => exact refuse fault s t h
  | ok _ =>
      cases (if checks t then constraint.check label t.read else .ok ()) with
      | error fault => exact refuse fault s t h
      | ok _ => exact record _ s t h

/-- Whether constants are folded is decided in the same way. -/
theorem of_folds {gadget fresh : Action p (Expr p)} (hFolds : Gadget.Folds gadget fresh)
    (hFresh : fresh.Blind) : gadget.Blind := by
  intro s t h
  rcases hFolds t.foldConstants with ⟨result, hResult⟩ | hNew
  · rw [hResult s h.foldConstants, hResult t rfl]
    exact ⟨rfl, h⟩
  · rw [hNew s h.foldConstants, hNew t rfl]
    exact hFresh s t h

theorem mul (a b : Expr p) (label : Option String) : (Gadget.mul a b label).Blind :=
  of_folds (Gadget.mul_folds a b label)
    ((compute _).andThen fun _ => (constrain _ _).andThen fun _ => ret _)

theorem square (a : Expr p) (label : Option String) : (Gadget.square a label).Blind :=
  of_folds (Gadget.square_folds a label)
    ((compute _).andThen fun _ => (constrain _ _).andThen fun _ => ret _)

theorem inv (a : Expr p) (label : Option String) : (Gadget.inv a label).Blind :=
  of_folds (Gadget.inv_folds a label)
    ((compute _).andThen fun _ => (constrain _ _).andThen fun _ => ret _)

theorem isZero (z : Expr p) : (Gadget.isZero z).Blind := by
  refine (introduce 2 _).andThen fun vars => ?_
  split
  · exact (constrain _ _).andThen fun _ => (constrain _ _).andThen fun _ => ret _
  · exact refuse _

theorem equal (a b : Expr p) : (Gadget.equal a b).Blind := by
  unfold Gadget.equal
  split
  · exact ret _
  · exact isZero _

theorem select (condition yes no : Expr p) : (Gadget.select condition yes no).Blind := by
  unfold Gadget.select
  split_ifs
  · exact ret yes
  · exact ret no
  · exact (mul _ _ _).andThen fun _ => ret _

theorem step (step : RunStep p) : step.action.Blind := by
  cases step with
  | declarePublic count values => exact declarePublic count values
  | allocate => exact allocate.single
  | introduce count values => exact introduce count values
  | compute value => exact (compute value).single
  | mul a b label => exact (mul a b label).single
  | square a label => exact (square a label).single
  | inv a label => exact (inv a label).single
  | div a b label => exact ((inv b label).andThen fun inverse => mul a inverse label).single
  | equal a b => exact (equal a b).single
  | select condition yes no => exact (select condition yes no).single
  | constrain constraint label => exact (constrain constraint label).andThen fun _ => ret _

end Action.Blind

/-- A call that is answered in the live mode, with the type of its answer. -/
inductive Call (p : Nat) : Type → Type 1 where
  | operation (step : RunStep p) : Call p (List (Expr p))
  | block {α : Type} (block : Env p → Except Stop α) : Call p (Option α)
  | read (e : Expr p) : Call p (Residue p)
  | setChecking (checking : Bool) : Call p Unit
  | setSettings (settings : Settings) : Call p Unit
  | reset : Call p Unit
  | mode : Call p Mode
  /-- Whether constants are folded. -/
  | folding : Call p Bool
  /-- Whether a prover block is being executed. -/
  | inBlock : Call p Bool
  /-- The circuit so far. -/
  | circuit : Call p (Circuit p)
  /-- The values so far. -/
  | witness : Call p (Witness p)

namespace Call

variable {p : Nat} [Modulus p] {α : Type}

def action : Call p α → Action p α
  | operation step => step.action
  | .block body => Action.proverBlock body
  | read e => Stateful.lookup fun state => state.read e
  | setChecking checking => Action.setChecking checking
  | setSettings settings => Action.setSettings settings
  | reset => Action.reset
  | mode => Stateful.inspect fun state => .ok state.mode
  | folding => Stateful.inspect fun state => .ok state.foldConstants
  | inBlock => Stateful.inspect fun state => .ok state.inBlock
  | circuit => Stateful.inspect RunState.compile
  | witness => Action.finishWitness

/-- Whether the call discards the live frame. -/
def resets : Call p α → Bool
  | reset => true
  | _ => false

/-- The checking that the call asks for. -/
def checking? : Call p α → Option Bool
  | setChecking checking => some checking
  | _ => none

end Call

namespace RunState

variable {p : Nat} [Modulus p]

/-- What no operation of a circuit changes. -/
structure Remains (before after : RunState p) : Prop where
  mode : after.mode = before.mode
  recording : after.recording.isSome = before.recording.isSome
  checking : after.checking = before.checking

theorem Remains.constrain {before state : RunState p} (h : before.Remains state)
    (constraint : Constraint p) (label : Option String) :
    before.Remains (Action.constrain constraint label state).2 := by
  obtain ⟨hMode, hChecking, hRecording, -⟩ :=
    constrain_frame (rfl : (Action.constrain constraint label state).2 = _)
  exact ⟨hMode.trans h.mode, hRecording.trans h.recording, hChecking.trans h.checking⟩

theorem remains_invariant (before : RunState p) : Invariant before.Remains where
  alloc h _ := ⟨h.mode, h.recording, h.checking⟩
  allocPublic h _ _ _ := ⟨h.mode, h.recording, h.checking⟩
  constrain label h _ := h.constrain _ label

omit [Modulus p] in
theorem remains_block {α : Type} (block : Env p → Except Stop α) (state : RunState p) :
    state.Remains (Action.proverBlock block state).2 := by
  obtain ⟨hMode, hChecking, hRecording, -⟩ := proverBlock_frame block state
  exact ⟨hMode, by rw [hRecording], hChecking⟩

theorem remains_step (step : RunStep p) (state : RunState p) :
    state.Remains (step.action state).2 := by
  have hState : state.Remains state := ⟨rfl, rfl, rfl⟩
  rw [step.action_state]
  exact RunStep.perform_keeps state.remains_invariant hState fun constraint label _ =>
    hState.constrain constraint label

end RunState

/-- What a call leaves behind: the checking that it asks for, if it does, and the live mode and
whether it records, unless the frame is discarded. -/
theorem Call.action_leaves {p : Nat} [Modulus p] {α : Type} (call : Call p α)
    (state : RunState p) :
    (call.action state).2.checking = call.checking?.getD state.checking ∧
      (call.resets = false → (call.action state).2.mode = state.mode ∧
        (call.action state).2.recording.isSome = state.recording.isSome) := by
  have hRemains {after : RunState p} (h : state.Remains after) :
      after.checking = state.checking ∧ (call.resets = false →
        after.mode = state.mode ∧ after.recording.isSome = state.recording.isSome) :=
    ⟨h.checking, fun _ => ⟨h.mode, h.recording⟩⟩
  cases call with
  | operation step => exact hRemains (state.remains_step step)
  | block body => exact hRemains (state.remains_block body)
  | reset => exact ⟨rfl, fun hKept => by cases hKept⟩
  | _ => exact ⟨rfl, fun _ => ⟨rfl, rfl⟩⟩

/-- A program in a mode. Each call is chosen by the answers before it. Changes of the settings may
be inserted anywhere. Other modes may be visited; what is learnt there belongs to them. -/
inductive Program (p : Nat) : Type 1 where
  | done
  | call {α : Type} (request : Call p α) (rest : Except Stop α → Program p)
  /-- An inserted change of the settings, of which the program knows nothing. -/
  | insert (settings : Settings) (rest : Program p)
  | visit (mode : Mode) (body rest : Program p)

namespace Program

variable {p : Nat} [Modulus p]

/-- Execute a program: the calls made in the mode with their answers, and the state at the end. -/
def run : Program p → RunState p → List (Σ α : Type, Call p α × Except Stop α) × RunState p
  | done, state => ([], state)
  | .call request rest, state =>
    let (answer, state) := request.action state
    let (answers, state) := (rest answer).run state
    (⟨_, request, answer⟩ :: answers, state)
  | insert settings rest, state => rest.run (Action.setSettings settings state).2
  | visit mode body rest, state =>
    let (guard, inner) := Guard.enter mode state
    rest.run (guard.drop (body.run inner).2)

/-- The program without the inserted changes. -/
def plain : Program p → Program p
  | done => done
  | .call request rest => .call request fun answer => (rest answer).plain
  | insert _ rest => rest.plain
  | visit mode body rest => visit mode body.plain rest.plain

/-- Nowhere in the program is the checking set. -/
def KeepsChecking : Program p → Prop
  | done => True
  | .call request rest => request.checking? = none ∧ ∀ answer, (rest answer).KeepsChecking
  | insert _ rest => rest.KeepsChecking
  | visit _ body rest => body.KeepsChecking ∧ rest.KeepsChecking

omit [Modulus p] in
theorem KeepsChecking.plain {program : Program p} (h : program.KeepsChecking) :
    program.plain.KeepsChecking := by
  induction program with
  | done => trivial
  | call request rest ih => exact ⟨h.1, fun answer => ih answer (h.2 answer)⟩
  | insert settings rest ih => exact ih h
  | visit mode body rest ihBody ihRest => exact ⟨ihBody h.1, ihRest h.2⟩

theorem KeepsChecking.run {program : Program p} (h : program.KeepsChecking) (state : RunState p) :
    (program.run state).2.checking = state.checking := by
  induction program generalizing state with
  | done => rfl
  | call request rest ih =>
      have hCall := (request.action_leaves state).1
      rw [h.1] at hCall
      exact (ih _ (h.2 _) _).trans hCall
  | insert settings rest ih => exact ih h _
  | visit mode body rest ihBody ihRest => exact (ihRest h.2 _).trans (ihBody h.1 _)

end Program

end ArithCircuit
