import ArithCircuit.Proofs.RunInvariant
import ArithCircuit.Script.Step

/-! Modes inside modes. A script may enter modes within modes, and each of them may be left because
its body ended, because a result was not wanted or not to be had, because a step failed, or because
a step unwinds. On each of these ways its guard is dropped, and no other: whatever a body does, the
guards that were held before it are held after it. Hence the guard that is dropped is the one that
holds the frame of the enclosing state, and that frame is live again as it was. -/
namespace ArithCircuit

namespace RunState

variable {p : Nat}

/-- After a mode, compared with just before it and with the end of its body: everything that belongs
to the enclosing mode is as it was, and the settings and the checking are as the body left them. -/
structure Restored (before inner after : RunState p) : Prop where
  mode : after.mode = before.mode
  table : after.table = before.table
  recording : after.recording = before.recording
  blockDepth : after.blockDepth = before.blockDepth
  settings : after.settings = inner.settings
  checking : after.checking = inner.checking

@[simp] theorem swapFrame_frame (state : RunState p) (frame : Frame p) :
    (state.swapFrame frame).2.frame = frame := rfl

/-- The frame that was live leaves no trace. -/
theorem swapFrame_congr {state state' : RunState p} (hSettings : state.settings = state'.settings)
    (hChecking : state.checking = state'.checking) (frame : Frame p) :
    (state.swapFrame frame).2 = (state'.swapFrame frame).2 := by
  simp only [swapFrame, hSettings, hChecking]

/-- Swapping a frame in and the one that was live before back restores the state. -/
theorem restored_swapFrame (before inner : RunState p) :
    before.Restored inner (inner.swapFrame before.frame).2 := by
  have hFrame := swapFrame_frame inner before.frame
  exact ⟨congrArg Frame.mode hFrame, congrArg Frame.table hFrame, congrArg Frame.recording hFrame,
    congrArg Frame.blockDepth hFrame, rfl, rfl⟩

end RunState

namespace Action

variable {p : Nat}

/-- An operation that leaves the settings and the checking alone. -/
def KeepsSettings {α : Type} (action : Action p α) : Prop :=
  ∀ state, (action state).2.settings = state.settings ∧
    (action state).2.checking = state.checking

theorem KeepsSettings.andThen {α β : Type} {first : Action p α} {next : α → Action p β}
    (hFirst : first.KeepsSettings) (hNext : ∀ a, (next a).KeepsSettings) :
    KeepsSettings (first >>= next) := by
  intro state
  show (Stateful.andThen first next state).2.settings = _ ∧
    (Stateful.andThen first next state).2.checking = _
  have hKept := hFirst state
  unfold Stateful.andThen
  rcases hRun : first state with ⟨_ | a, middle⟩
  · rwa [hRun] at hKept
  · rw [hRun] at hKept
    exact ⟨(hNext a middle).1.trans hKept.1, (hNext a middle).2.trans hKept.2⟩

theorem finishCircuit_keepsSettings [Modulus p] : (finishCircuit (p := p)).KeepsSettings := by
  intro state
  unfold finishCircuit
  split
  · exact ⟨rfl, rfl⟩
  · exact ⟨rfl, rfl⟩

theorem finishWitness_keepsSettings : (finishWitness (p := p)).KeepsSettings :=
  fun _ => ⟨rfl, rfl⟩

theorem prove_keepsSettings [Modulus p] {α : Type} (result : Circuit p → Witness p → α) :
    KeepsSettings (do
      let witness ← finishWitness
      let circuit ← finishCircuit
      return result circuit witness : Action p α) :=
  finishWitness_keepsSettings.andThen fun _ =>
    finishCircuit_keepsSettings.andThen fun _ _ => ⟨rfl, rfl⟩

/-- What finishes a mode after its body is carried out in the live frame, which is then lost. -/
theorem restored_within {α : Type} (mode : Mode) (body : Action p Unit) {last : Action p α}
    (hLast : last.KeepsSettings) (state : RunState p) :
    state.Restored (body (state.enter mode)).2 (within mode (do body; last) state).2 := by
  have hInner : ((do body; last : Action p α) (state.enter mode)).2.settings =
        (body (state.enter mode)).2.settings ∧
      ((do body; last : Action p α) (state.enter mode)).2.checking =
        (body (state.enter mode)).2.checking := by
    show (Stateful.andThen body (fun _ => last) (state.enter mode)).2.settings = _ ∧
      (Stateful.andThen body (fun _ => last) (state.enter mode)).2.checking = _
    unfold Stateful.andThen
    rcases body (state.enter mode) with ⟨_ | _, inner⟩
    · exact ⟨rfl, rfl⟩
    · exact hLast inner
  rw [within_eq, RunState.backTo, RunState.swapFrame_congr hInner.1 hInner.2]
  exact RunState.restored_swapFrame state _

end Action

namespace Script

/-- How a mode was left. -/
inductive Departure (p : Nat) where
  /-- With a result. -/
  | finished (circuit : Option (Circuit p)) (witness : Option (Witness p))
  /-- Asked for a result that was refused. -/
  | refused (fault : Fault)
  /-- Without asking for a result. -/
  | dropped
  /-- Where a step failed. -/
  | failed (fault : Fault)
  /-- While a step unwinds. -/
  | unwound
deriving DecidableEq

/-- What the enclosing script learns. -/
def Departure.outcome {p : Nat} (entry : Entry) (answers : List (Answer p)) :
    Departure p → Outcome p
  | finished circuit witness =>
    .answered (.entered answers (.finished circuit witness entry.brief))
  | refused fault | failed fault => .answered (.entered answers (.stopped (.fault fault)))
  | dropped => .answered (.entered answers .dropped)
  | unwound => Script.unwound entry answers

/-- A mode that was entered and left: how, from which machine, what its body came to, what the
script learnt and with which machine it went on. -/
structure Visit (p : Nat) where
  entry : Entry
  before : Machine p
  body : BodyOutcome p
  inner : Machine p
  outcome : Outcome p
  after : Machine p

theorem keepResults_state {p : Nat} (entry : Entry) (circuit : Option (Circuit p))
    (witness : Option (Witness p)) (session : Session p) :
    (keepResults entry circuit witness session).state = session.state := by
  unfold keepResults
  split
  · split
    · rfl
    · rfl
  · split
    · rfl
    · rfl

variable {p : Nat} [Modulus p]

/-- The way in which a mode is left. -/
def departure (entry : Entry) (body : BodyOutcome p) (inner : RunState p) : Departure p :=
  match body.interruption with
  | some (.unwinding _) | some (.failed .abort) => .unwound
  | some (.failed (.fault fault)) => .failed fault
  | none =>
    if entry.drop then .dropped
    else
      match (finish entry.mode inner).1 with
      | .ok (circuit, witness) => .finished circuit witness
      | .error (.fault fault) => .refused fault
      | .error .abort => .unwound

def Visit.departure (visit : Visit p) : Departure p :=
  Script.departure visit.entry visit.body visit.inner.session.state

/-- The modes visited while a body is repeated. -/
def iterateVisits (body : Machine p → BodyOutcome p × Machine p)
    (visits : Machine p → List (Visit p)) : Nat → Machine p → List (Visit p)
  | 0, _ => []
  | count + 1, machine =>
    visits machine ++
      match body machine with
      | (⟨_, some _⟩, _) => []
      | (⟨_, none⟩, machine) => iterateVisits body visits count machine

mutual

/-- The modes visited by a step, at any depth and in the order in which they are left. -/
def Step.visits : Step → Machine p → List (Visit p)
  | .command _, _ | .unwind, _ | .repeated _ [], _ => []
  | .repeated count (step :: rest), machine =>
    iterateVisits (executeBody true (step :: rest)) (bodyVisits true (step :: rest)) count machine
  | .enter entry body, machine =>
    let entered := machine.enter entry.mode
    let (outcome, inner) := executeBody entry.strict body entered
    let (left, after) := leave entry outcome inner
    bodyVisits entry.strict body entered ++ [⟨entry, machine, outcome, inner, left, after⟩]

/-- The modes visited by the steps of a body that are executed. -/
def bodyVisits (strict : Bool) : List Step → Machine p → List (Visit p)
  | [], _ => []
  | step :: rest, machine =>
    step.visits machine ++
      match step.execute machine with
      | (.answered _, machine) => bodyVisits strict rest machine
      | (.interrupted (.failed _), machine) =>
        if strict then [] else bodyVisits strict rest machine
      | (.interrupted (.unwinding _), _) => []

end

/-- Finishing a mode touches nothing outside of its frame. -/
theorem finish_keepsSettings (mode : Mode) : (finish mode : Action p _).KeepsSettings := by
  cases mode with
  | idle => exact fun _ => ⟨rfl, rfl⟩
  | constraintGeneration =>
      exact Action.finishCircuit_keepsSettings.andThen fun _ _ => ⟨rfl, rfl⟩
  | witnessGeneration =>
      exact Action.finishWitness_keepsSettings.andThen fun _ _ => ⟨rfl, rfl⟩
  | prover => exact Action.prove_keepsSettings fun circuit witness => (some circuit, some witness)

omit [Modulus p] in
theorem act_state {α : Type} (action : Action p α) (session : Session p) :
    Interaction.act action session =
      ((action session.state).1, { session with state := (action session.state).2 }) := by
  cases session
  rfl

namespace Machine

variable {machine : Machine p} {saved : Frame p} {outer : List (Guard p)}

omit [Modulus p] in
/-- Entering a mode puts the live frame into a guard on top of the others. -/
theorem enter_guards (mode : Mode) (machine : Machine p) :
    (machine.enter mode).guards = ⟨some machine.session.state.frame⟩ :: machine.guards := rfl

omit [Modulus p] in
/-- Dropping the guard on top makes the frame in it live. -/
theorem drop_of_guards (h : machine.guards = ⟨some saved⟩ :: outer) :
    machine.drop.guards = outer ∧
      machine.drop.session.state = (machine.session.state.swapFrame saved).2 := by
  rw [drop, h]
  exact ⟨rfl, rfl⟩

end Machine

/-- On every way out of a mode its guard is dropped, and the frame that it held is live. -/
theorem leave_drops (entry : Entry) (body : BodyOutcome p) {inner : Machine p} {saved : Frame p}
    {outer : List (Guard p)} (hGuards : inner.guards = ⟨some saved⟩ :: outer) :
    (leave entry body inner).2.guards = outer ∧
      (leave entry body inner).2.session.state = (inner.session.state.swapFrame saved).2 := by
  have hDrop := Machine.drop_of_guards hGuards
  -- the mode is still live while its result is asked for, and dropped after that
  have hFinish : ∀ result machine,
      inner.interact (.act (finish entry.mode)) = (result, machine) →
        machine.drop.guards = outer ∧
          machine.drop.session.state = (inner.session.state.swapFrame saved).2 := by
    intro result machine hAsked
    obtain ⟨hSettings, hChecking⟩ := finish_keepsSettings entry.mode inner.session.state
    rw [Machine.interact, act_state] at hAsked
    obtain ⟨-, rfl⟩ := Prod.mk.inj hAsked
    rw [← RunState.swapFrame_congr hSettings hChecking]
    exact Machine.drop_of_guards hGuards
  obtain ⟨answers, interruption⟩ := body
  unfold leave
  dsimp only
  rcases interruption with _ | ⟨_ | _⟩ | _
  · dsimp only
    split
    · exact hDrop
    · split
      · rename_i hAsked
        rw [keepResults_state]
        exact hFinish _ _ hAsked
      · rename_i hAsked
        exact hFinish _ _ hAsked
      · rename_i hAsked
        exact hFinish _ _ hAsked
  · exact hDrop
  · exact hDrop
  · exact hDrop

/-- The script learns in which way the mode was left. -/
theorem leave_outcome (entry : Entry) (body : BodyOutcome p) (inner : Machine p) :
    (leave entry body inner).1 =
      (departure entry body inner.session.state).outcome entry body.allAnswers := by
  obtain ⟨answers, interruption⟩ := body
  unfold leave departure
  rw [Machine.interact, act_state]
  dsimp only
  rcases interruption with _ | ⟨_ | _⟩ | _
  · dsimp only
    split
    · rfl
    · rcases (finish entry.mode inner.session.state).1 with (_ | _) | ⟨circuit, witness⟩
      · rfl
      · rfl
      · rfl
  · rfl
  · rfl
  · rfl

omit [Modulus p] in
theorem iterateAfter_guards {body : Machine p → BodyOutcome p × Machine p}
    (hBody : ∀ machine, (body machine).2.guards = machine.guards) (before : List (Answer p))
    (count : Nat) (machine : Machine p) :
    (iterateAfter body before count machine).2.guards = machine.guards := by
  induction count generalizing before machine with
  | zero => rfl
  | succ count ih =>
      have hFirst := hBody machine
      rw [iterateAfter]
      generalize body machine = result at hFirst ⊢
      obtain ⟨⟨answers, _ | interruption⟩, next⟩ := result
      · exact (ih _ next).trans hFirst
      · exact hFirst

/-- A property of steps and one of bodies, proved together. -/
theorem Step.body_induction {P : Step → Prop} {Q : List Step → Prop}
    (command : ∀ command, P (.command command)) (unwind : P .unwind)
    (repeated : ∀ count body, Q body → P (.repeated count body))
    (enter : ∀ entry body, Q body → P (.enter entry body))
    (nil : Q []) (cons : ∀ step rest, P step → Q rest → Q (step :: rest)) (steps : List Step) :
    Q steps :=
  @Step.rec_1 P Q command unwind repeated enter nil cons steps

/-- Whatever steps are executed, and however they end, the guards that are held after them are those
that were held before. -/
theorem executeBody_guards (strict : Bool) (steps : List Step) (machine : Machine p) :
    (executeBody strict steps machine).2.guards = machine.guards := by
  induction steps using Step.body_induction (P := fun step =>
      ∀ machine : Machine p, (step.execute machine).2.guards = machine.guards)
    generalizing strict machine with
  | command command machine =>
      rw [Step.execute, Machine.interact]
      rcases command.execute machine.session with ⟨_ | _, session⟩
      · rfl
      · rfl
  | unwind machine => rw [Step.execute]
  | repeated count body ih machine =>
      cases body with
      | nil => rw [Step.execute]
      | cons step rest =>
          have hAll := iterateAfter_guards (ih true) [] count machine
          rw [Step.execute]
          generalize iterateAfter (executeBody true (step :: rest)) [] count machine = result
            at hAll ⊢
          obtain ⟨⟨answers, _ | interruption⟩, next⟩ := result
          · exact hAll
          · exact hAll
  | enter entry body ih machine =>
      rw [Step.execute]
      -- the body gives back the guard of this mode on top, and leaving the mode drops it
      exact (leave_drops entry _ ((ih entry.strict _).trans (machine.enter_guards entry.mode))).1
  | nil => rw [executeBody]
  | cons step rest hStep hRest =>
      have hFirst := hStep machine
      rw [executeBody]
      generalize step.execute machine = result at hFirst ⊢
      obtain ⟨answer | ⟨stop | answered⟩, next⟩ := result
      · exact (hRest strict next).trans hFirst
      · dsimp only
        split_ifs
        · exact hFirst
        · exact (hRest strict next).trans hFirst
      · exact hFirst

/-- A visit records an execution of the step that enters the mode with some body. -/
def Visit.IsExecuted (visit : Visit p) : Prop :=
  ∃ body, (Step.enter visit.entry body).execute visit.before = (visit.outcome, visit.after) ∧
    executeBody visit.entry.strict body (visit.before.enter visit.entry.mode) =
      (visit.body, visit.inner)

namespace Visit.IsExecuted

variable {visit : Visit p}

theorem leave_eq (h : visit.IsExecuted) :
    leave visit.entry visit.body visit.inner = (visit.outcome, visit.after) := by
  obtain ⟨body, hStep, hBody⟩ := h
  rw [Step.execute, hBody] at hStep
  exact hStep

/-- At the end of its body, the frame of the enclosing state is in the guard on top. -/
theorem inner_guards (h : visit.IsExecuted) :
    visit.inner.guards = ⟨some visit.before.session.state.frame⟩ :: visit.before.guards := by
  obtain ⟨body, -, hBody⟩ := h
  have hGuards := executeBody_guards visit.entry.strict body (visit.before.enter visit.entry.mode)
  rw [hBody] at hGuards
  exact hGuards

theorem restored (h : visit.IsExecuted) :
    visit.after.guards = visit.before.guards ∧
      visit.before.session.state.Restored visit.inner.session.state visit.after.session.state := by
  obtain ⟨hGuards, hState⟩ := leave_drops visit.entry visit.body h.inner_guards
  rw [h.leave_eq] at hGuards hState
  refine ⟨hGuards, ?_⟩
  rw [hState]
  exact RunState.restored_swapFrame _ _

end Visit.IsExecuted

theorem iterateVisits_isExecuted {body : Machine p → BodyOutcome p × Machine p}
    {visits : Machine p → List (Visit p)}
    (hVisits : ∀ machine, ∀ visit ∈ visits machine, visit.IsExecuted) (count : Nat)
    (machine : Machine p) :
    ∀ visit ∈ iterateVisits body visits count machine, visit.IsExecuted := by
  induction count generalizing machine with
  | zero => simp [iterateVisits]
  | succ count ih =>
      intro visit hVisit
      rw [iterateVisits] at hVisit
      rcases List.mem_append.mp hVisit with hNow | hLater
      · exact hVisits machine visit hNow
      · split at hLater
        · cases hLater
        · exact ih _ visit hLater

theorem bodyVisits_isExecuted_cons {strict : Bool} {step : Step} {rest : List Step}
    (hStep : ∀ machine : Machine p, ∀ visit ∈ step.visits machine, visit.IsExecuted)
    (hRest : ∀ machine : Machine p, ∀ visit ∈ bodyVisits strict rest machine, visit.IsExecuted)
    (machine : Machine p) :
    ∀ visit ∈ bodyVisits strict (step :: rest) machine, visit.IsExecuted := by
  intro visit hVisit
  rw [bodyVisits] at hVisit
  rcases List.mem_append.mp hVisit with hNow | hLater
  · exact hStep machine visit hNow
  · split at hLater
    · exact hRest _ visit hLater
    · split at hLater
      · cases hLater
      · exact hRest _ visit hLater
    · cases hLater

theorem bodyVisits_isExecuted (strict : Bool) (steps : List Step) (machine : Machine p) :
    ∀ visit ∈ bodyVisits strict steps machine, visit.IsExecuted := by
  induction steps using Step.body_induction (P := fun step =>
      ∀ machine : Machine p, ∀ visit ∈ step.visits machine, visit.IsExecuted)
    generalizing strict machine with
  | command command machine visit hVisit => simp [Step.visits] at hVisit
  | unwind machine visit hVisit => simp [Step.visits] at hVisit
  | repeated count body ih machine visit hVisit =>
      cases body with
      | nil => simp [Step.visits] at hVisit
      | cons step rest =>
          rw [Step.visits] at hVisit
          exact iterateVisits_isExecuted (ih true) count machine visit hVisit
  | enter entry body ih machine visit hVisit =>
      rw [Step.visits] at hVisit
      rcases List.mem_append.mp hVisit with hInside | hSelf
      · exact ih _ _ visit hInside
      · obtain rfl := List.mem_singleton.mp hSelf
        exact ⟨body, by rw [Step.execute]; rfl, rfl⟩
  | nil => simp [bodyVisits]
  | cons step rest hStep hRest => exact bodyVisits_isExecuted_cons hStep (hRest strict) machine

/-- Every mode that a script visits, in a body of steps that may fail, unwind, discard the live
frame or visit further modes, is left in one of the ways above, and right after that the mode, the
variables, the recording and the depth of prover blocks of the enclosing state are what they were
just before, and so are the frames of the modes around it, which are still held by their guards. The
same holds of a circuit, a witness or a proof that is asked for with any body. -/
theorem modes_restored (strict : Bool) (steps : List Step) (machine : Machine p) :
    (∀ visit ∈ bodyVisits strict steps machine, visit.IsExecuted ∧
      visit.outcome = visit.departure.outcome visit.entry visit.body.allAnswers ∧
      visit.after.guards = visit.before.guards ∧
      visit.before.session.state.Restored visit.inner.session.state visit.after.session.state) ∧
    (executeBody strict steps machine).2.guards = machine.guards ∧
    ∀ (body : Action p Unit) (state : RunState p),
      state.Restored (body (state.enter .constraintGeneration)).2 (Action.circuitOf body state).2 ∧
      state.Restored (body (state.enter .witnessGeneration)).2 (Action.witnessOf body state).2 ∧
      state.Restored (body (state.enter .prover)).2 (Action.prove body state).2 := by
  refine ⟨fun visit hVisit => ?_, executeBody_guards strict steps machine,
    fun body state => ⟨?_, ?_, ?_⟩⟩
  · have hExecuted := bodyVisits_isExecuted strict steps machine visit hVisit
    have hOutcome := leave_outcome visit.entry visit.body visit.inner
    rw [hExecuted.leave_eq] at hOutcome
    exact ⟨hExecuted, hOutcome, hExecuted.restored⟩
  · exact Action.restored_within _ _ Action.finishCircuit_keepsSettings state
  · exact Action.restored_within _ _ Action.finishWitness_keepsSettings state
  · exact Action.restored_within _ _ (Action.prove_keepsSettings Prod.mk) state

/-- All ways out of a mode, inside a mode that has a variable. The live frame is discarded in most
of them, and the checking is turned off in the innermost. -/
theorem modes_restored_every_way :
    let compute : Step := .command (.compute (.const (.int 5)) ⟨some "x", true⟩)
    let enter := fun (mode : Mode) (strict drop catches : Bool) (body : List Step) =>
      Step.enter ⟨mode, strict, drop, catches, none, none, true⟩ body
    let steps := [enter .witnessGeneration false false false [compute,
      enter .prover false false true [compute,
        enter .witnessGeneration false false false
          [.command (.setChecking false), .command .reset, .unwind]],
      enter .constraintGeneration false true false [.command .reset,
        enter .witnessGeneration true false false
          [compute, .command (.constrain (.equal (.named "x") .one) none), .unwind]],
      enter .constraintGeneration false false false [.command .reset]]]
    let visits := bodyVisits false steps ⟨(Session.start Preset.debug.settings : Session 7), []⟩
    visits.map Visit.departure = [.unwound, .unwound,
        .failed (.unsatisfied none "v0 = 1" ["-2", "1"]), .dropped, .refused .nothingRecorded,
        .finished none (some ⟨#[some (.ofNat 7 5)], 0⟩)] ∧
      (visits.map fun visit => (visit.before.session.state.table.size,
        visit.inner.session.state.table.size)) =
          [(1, 0), (1, 1), (0, 1), (1, 0), (1, 0), (0, 1)] ∧
      (visits.map fun visit => visit.inner.guards.length) = [3, 2, 3, 2, 2, 1] ∧
      ∀ visit ∈ visits, visit.after.guards = visit.before.guards ∧
        visit.before.session.state.Restored visit.inner.session.state
          visit.after.session.state := by
  intro compute enter steps visits
  refine ⟨by decide +kernel, by decide +kernel, by decide +kernel, fun visit hVisit => ?_⟩
  exact ((modes_restored false steps _).1 visit hVisit).2.2

end Script

end ArithCircuit
