import ArithCircuit.Proofs.PathShortening
import ArithCircuit.Proofs.Reachable
import ArithCircuit.Proofs.Simulation
import ArithCircuit.Proofs.ValueIndependence

/-! Failed calls. A primitive operation that fails has changed nothing that a circuit or a witness
is made of. A constraint that contradicts the classes is counted as offered, and paths may have been
shortened while it was looked at; neither is seen by what follows. The calls that failed may
therefore be left out of a recording without a change of the circuit. -/
namespace ArithCircuit

namespace Action

variable {p : Nat}

/-- Public inputs are refused before anything changes, or allocated. -/
theorem declarePublic_cases (count : Nat) (values : Option (List (Residue p)))
    (state : RunState p) :
    (∃ stop, declarePublic count values state = (.error stop, state)) ∨
      ∃ vars next, declarePublic count values state = (.ok vars, next) := by
  simp only [declarePublic, inMode]
  split_ifs
  · exact .inl ⟨_, rfl⟩
  · exact .inl ⟨_, rfl⟩
  · exact .inl ⟨_, rfl⟩
  · exact .inr ⟨_, _, rfl⟩
  · exact .inr ⟨_, _, rfl⟩

/-- Variables are refused before anything changes, or allocated as many as asked for. -/
theorem introduce_cases (count : Nat) (values : Env p → Except Stop (List (Residue p)))
    (state : RunState p) :
    (∃ stop, introduce count values state = (.error stop, state)) ∨
      ∃ vars next, introduce count values state = (.ok vars, next) ∧ vars.length = count := by
  simp only [introduce, inMode]
  split_ifs
  · exact .inl ⟨_, rfl⟩
  · cases values state.env with
    | error stop => exact .inl ⟨stop, rfl⟩
    | ok given =>
        dsimp only
        split_ifs with hCount
        · exact .inl ⟨_, rfl⟩
        · exact .inr ⟨_, _, rfl, by simpa [RunState.allocAll] using hCount⟩
  · exact .inr ⟨_, _, rfl, by simp [RunState.allocAll]⟩

theorem compute_cases (value : Env p → Except Stop (Residue p)) (state : RunState p) :
    (∃ stop, compute value state = (.error stop, state)) ∨
      ∃ e next, compute value state = (.ok e, next) := by
  simp only [compute, bind, Stateful.andThen]
  rcases introduce_cases 1 (fun env => (value env).map fun x => [x]) state with
    ⟨stop, hRefused⟩ | ⟨vars, next, hAllocated, hLength⟩
  · rw [hRefused]
    exact .inl ⟨stop, rfl⟩
  · obtain ⟨e, rfl⟩ := List.length_eq_one_iff.mp hLength
    rw [hAllocated]
    exact .inr ⟨e, next, rfl⟩

end Action

/-- An assertion that fits its kind is refused only by the classes, and counted then. -/
theorem Recording.add_error {p : Nat} [Modulus p] {recording : Recording p}
    {table : VariableTable p} {assertion : Assertion p} {stop : Stop}
    (hArity : assertion.constraint.checkArity = .ok ())
    (h : (recording.add table assertion).1 = .error stop) :
    table.absorb recording.settings assertion = .error stop ∧
      recording.add table assertion =
        (.error stop, recording.recount (recording.recorded + 1), table) := by
  obtain ⟨settings, waiting, recorded, unified⟩ := recording
  simp only [add, hArity] at h ⊢
  cases hAbsorb : table.absorb settings assertion with
  | error cause =>
      rw [hAbsorb] at h
      cases h
      exact ⟨rfl, rfl⟩
  | ok absorption =>
      rw [hAbsorb] at h
      cases absorption with
      | absorbed next => cases h
      | kept kept => cases h

namespace RunState

variable {p : Nat} [Modulus p] {state next : RunState p} {constraint : Constraint p}
  {label : Option String} {stop : Stop} {mode : Mode}

/-- The state after as many more constraints were offered to its recording. -/
def count (offered : Nat) (state : RunState p) : RunState p :=
  { state with
    recording := state.recording.map fun recording =>
      recording.recount (recording.recorded + offered) }

omit [Modulus p] in
theorem count_zero (state : RunState p) : state.count 0 = state := by
  obtain ⟨mode, table, recording, settings, checking, blockDepth⟩ := state
  cases recording with
  | none => rfl
  | some recording => rfl

/-- The constraint fits its kind and passes its check, if there is one, and then the classes refuse
it, because no assignment that agrees with them satisfies it. -/
structure Refutes (state : RunState p) (constraint : Constraint p) (label : Option String)
    (stop : Stop) : Prop where
  arity : constraint.checkArity = .ok ()
  check : Action.checks state = true → constraint.check label state.read = .ok ()
  refused : ∃ recording, state.recording = some recording ∧
    state.table.absorb recording.settings ⟨label, constraint⟩ = .error stop
  cause : ∃ statement, stop = .fault (.unsatisfied label statement [])
  contradicts : ∀ w, state.table.Consistent w → ¬ constraint.Holds w

/-- A constraint that fails was refused before anything changed, or was counted and then refused by
the classes. -/
theorem constrain_error (h : (Action.constrain constraint label state).1 = .error stop) :
    ((Action.constrain constraint label state).2 = state ∧ (state.mode = .idle ∨
      constraint.checkArity ≠ .ok () ∨
        Action.checks state = true ∧ constraint.check label state.read ≠ .ok ())) ∨
    (constraint.checkArity = .ok () ∧
      (Action.checks state = true → constraint.check label state.read = .ok ()) ∧
      (∃ recording, state.recording = some recording ∧
        state.table.absorb recording.settings ⟨label, constraint⟩ = .error stop) ∧
      (Action.constrain constraint label state).2 = state.count 1) := by
  rcases Action.constrain_cases state constraint label with
    ⟨fault, hRefused, hCause⟩ | ⟨-, hArity, hCheck, hRecord⟩
  · rw [hRefused]
    refine .inl ⟨rfl, ?_⟩
    rcases hCause with hIdle | hArity | ⟨hChecks, hCheck⟩
    · exact .inl hIdle
    · exact .inr (.inl (by rw [hArity]; nofun))
    · exact .inr (.inr ⟨hChecks, by rw [hCheck]; nofun⟩)
  · rw [hRecord] at h ⊢
    cases hRecording : state.recording with
    | none =>
        rw [Action.record_of_none hRecording] at h
        cases h
    | some recording =>
        rw [Action.record_of_some hRecording] at h ⊢
        obtain ⟨hAbsorb, hAdd⟩ := Recording.add_error hArity h
        refine .inr ⟨hArity, hCheck, ⟨recording, rfl, hAbsorb⟩, ?_⟩
        simp only [hAdd, count, hRecording]
        rfl

/-- What is left of a state after a failed call: everything, but for the number of constraints that
were offered. -/
structure Intact (offered : Nat) (before after : RunState p) : Prop where
  mode : after.mode = before.mode
  values : after.table.values = before.table.values
  publicCount : after.table.publicCount = before.table.publicCount
  rep : ∀ x, after.table.rep x = before.table.rep x
  recording : after.recording = before.recording.map fun recording =>
    recording.recount (recording.recorded + offered)
  blockDepth : after.blockDepth = before.blockDepth
  settings : after.settings = before.settings
  checking : after.checking = before.checking

/-- The state in which paths of the classes have been shortened. -/
def shorten (searched : LinearForm p) (state : RunState p) : RunState p :=
  state.modifyTable fun table => table.compress searched

theorem intact_count [Fact p.Prime] (hTable : state.table.WellFormed) (offered : Nat)
    (searched : LinearForm p) : state.Intact offered ((state.count offered).shorten searched) where
  mode := rfl
  values := rfl
  publicCount := rfl
  rep x := (VariableTable.compress_agrees hTable searched).rep x
  recording := rfl
  blockDepth := rfl
  settings := rfl
  checking := rfl

/-- A constraint that fails is counted exactly if it was refuted. -/
theorem Live.constrain_error [Fact p.Prime] (h : state.Live mode)
    (hVars : ∀ x ∈ constraint.vars, x < state.table.size)
    (hFail : (Action.constrain constraint label state).1 = .error stop) :
    ((Action.constrain constraint label state).2 = state ∧
      ¬ state.Refutes constraint label stop) ∨
    ((Action.constrain constraint label state).2 = state.count 1 ∧
      state.Refutes constraint label stop) := by
  rcases RunState.constrain_error hFail with ⟨hState, hCause⟩ | ⟨hArity, hCheck, hRefused, hState⟩
  · refine .inl ⟨hState, fun hRefutes => ?_⟩
    rcases hCause with hIdle | hArity | ⟨hChecks, hCheck⟩
    · obtain ⟨recording, hRecording, -⟩ := hRefutes.refused
      have hNone := h.recording
      rw [hRecording, ← h.mode_eq, hIdle] at hNone
      cases hNone
    · exact hArity hRefutes.arity
    · exact hCheck (hRefutes.check hChecks)
  · obtain ⟨recording, hRecording, hAbsorb⟩ := hRefused
    obtain ⟨hCause, hNever⟩ := VariableTable.absorb_error h.wellFormed hVars hAbsorb
    exact .inr ⟨hState, hArity, hCheck, ⟨recording, hRecording, hAbsorb⟩, hCause, hNever⟩

end RunState

/-- The operations that the others are made of. -/
def RunStep.isPrimitive {p : Nat} : RunStep p → Bool
  | .declarePublic _ _ | .allocate | .introduce _ _ | .compute _ | .constrain _ _ => true
  | _ => false

namespace RunState

variable {p : Nat} [Modulus p] {state next : RunState p} {stop : Stop} {mode : Mode}

/-- A primitive operation other than a constraint fails before anything changes. -/
theorem primitive_state_of_error {step : RunStep p} (hStep : step.isPrimitive = true)
    (hOther : ∀ constraint label, step ≠ .constrain constraint label)
    (hFail : (step.action state).1 = .error stop) : (step.action state).2 = state := by
  cases step with
  | declarePublic count values =>
      rcases Action.declarePublic_cases count values state with ⟨cause, hRun⟩ | ⟨vars, next, hRun⟩
      · exact congrArg Prod.snd hRun
      · rw [RunStep.action, hRun] at hFail
        cases hFail
  | allocate =>
      by_cases hIdle : state.mode = .idle
      · simp only [RunStep.action, Action.single, Action.allocate, Action.inMode, bind,
          Stateful.andThen, if_pos hIdle]
        rfl
      · simp only [RunStep.action, Action.single, Action.allocate, Action.inMode, bind,
          Stateful.andThen, if_neg hIdle] at hFail
        cases hFail
  | introduce count values =>
      rcases Action.introduce_cases count values state with
        ⟨cause, hRun⟩ | ⟨vars, next, hRun, -⟩
      · exact congrArg Prod.snd hRun
      · rw [RunStep.action, hRun] at hFail
        cases hFail
  | compute value =>
      simp only [RunStep.action, Action.single, bind, Stateful.andThen] at hFail ⊢
      rcases Action.compute_cases value state with ⟨cause, hRun⟩ | ⟨e, next, hRun⟩
      · rw [hRun]
      · rw [hRun] at hFail
        cases hFail
  | constrain constraint label => exact absurd rfl (hOther constraint label)
  | _ => cases hStep

/-- The failure of a step is a contradiction that was found while the classes absorbed it. -/
def Contradicted (state : RunState p) (step : RunStep p) (stop : Stop) : Prop :=
  ∃ constraint label, step = .constrain constraint label ∧ state.Refutes constraint label stop

/-- A failed primitive operation leaves the recording intact. -/
theorem Live.primitive_error [Fact p.Prime] (h : state.Live mode) {step : RunStep p}
    (hStep : step.isPrimitive = true)
    (hVars : ∀ constraint label, step = .constrain constraint label →
      ∀ x ∈ constraint.vars, x < state.table.size)
    (hFail : (step.action state).1 = .error stop) :
    ∃ offered, (step.action state).2 = state.count offered ∧
      (offered = 0 ∧ ¬ state.Contradicted step stop ∨
        offered = 1 ∧ state.Contradicted step stop) := by
  by_cases hConstrain : ∃ constraint label, step = .constrain constraint label
  · obtain ⟨constraint, label, rfl⟩ := hConstrain
    rw [RunStep.constrain_action] at hFail ⊢
    have hFailed : (Action.constrain constraint label state).1 = .error stop := by
      revert hFail
      cases (Action.constrain constraint label state).1 with
      | error cause =>
          intro hFail
          cases hFail
          rfl
      | ok _ =>
          intro hFail
          cases hFail
    rcases h.constrain_error (hVars constraint label rfl) hFailed with
      ⟨hState, hNot⟩ | ⟨hState, hRefutes⟩
    · refine ⟨0, hState.trans state.count_zero.symm, .inl ⟨rfl, ?_⟩⟩
      rintro ⟨_, _, ⟨⟩, hRefutes⟩
      exact hNot hRefutes
    · exact ⟨1, hState, .inr ⟨rfl, constraint, label, rfl, hRefutes⟩⟩
  · have hOther (constraint : Constraint p) (label : Option String) :
        step ≠ .constrain constraint label := fun hEq => hConstrain ⟨constraint, label, hEq⟩
    refine ⟨0, (primitive_state_of_error hStep hOther hFail).trans state.count_zero.symm,
      .inl ⟨rfl, ?_⟩⟩
    rintro ⟨constraint, label, hEq, -⟩
    exact hOther constraint label hEq

/-- A sequence of attempts to add constraints, with those that were accepted. Each of the calls may
shorten paths. -/
inductive Attempts (start : RunState p) : List (Assertion p) → RunState p → Prop where
  | refl : Attempts start [] start
  | accepted {accepted : List (Assertion p)} {state next : RunState p} {assertion : Assertion p}
      (prior : Attempts start accepted state)
      (h : Action.constrain assertion.constraint assertion.label state = (.ok (), next)) :
      Attempts start (accepted ++ [assertion]) next
  | failed {accepted : List (Assertion p)} {state : RunState p} {assertion : Assertion p}
      {stop : Stop} (prior : Attempts start accepted state)
      (h : (Action.constrain assertion.constraint assertion.label state).1 = .error stop) :
      Attempts start accepted
        (Action.constrain assertion.constraint assertion.label state).2
  | shortened {accepted : List (Assertion p)} {state : RunState p}
      (prior : Attempts start accepted state) (searched : LinearForm p) :
      Attempts start accepted (state.shorten searched)

/-- Two states of a recording that cannot be told apart. Their paths may differ, and so may the
number of constraints that were offered. -/
structure Echoes (s t : RunState p) : Prop where
  mode : t.mode = s.mode
  checking : t.checking = s.checking
  table : s.table.Twins s.table.size t.table
  values : t.table.values = s.table.values
  recording : ∃ recorded, t.recording = s.recording.map (Recording.recount recorded)

namespace Echoes

variable {s t : RunState p}

theorem refl (hTable : s.table.WellFormed) : s.Echoes s := by
  apply Echoes.mk rfl rfl (.refl hTable) rfl
  cases s.recording with
  | none => exact ⟨0, rfl⟩
  | some recording => exact ⟨recording.recorded, rfl⟩

theorem read (h : s.Echoes t) : t.read = s.read := by
  have hValue : t.table.value = s.table.value := by
    funext x
    rw [VariableTable.value, VariableTable.value, h.values]
  funext e
  rw [RunState.read, RunState.read, h.mode, hValue]

theorem checks (h : s.Echoes t) : Action.checks t = Action.checks s := by
  rw [Action.checks, Action.checks, h.mode, h.checking]

variable [Fact p.Prime]

theorem record (h : s.Echoes t) (assertion : Assertion p) :
    (Action.record assertion t).1 = (Action.record assertion s).1 ∧
      (Action.record assertion s).2.Echoes (Action.record assertion t).2 := by
  obtain ⟨recorded, hRecording⟩ := h.recording
  cases hOwn : s.recording with
  | none =>
      rw [hOwn] at hRecording
      rw [Action.record_of_none hOwn, Action.record_of_none hRecording]
      exact ⟨rfl, h⟩
  | some recording =>
      rw [hOwn] at hRecording
      rw [Action.record_of_some hOwn, Action.record_of_some hRecording]
      obtain ⟨hResult, ⟨recorded', hNext⟩, hTable⟩ :=
        recording.add_recount recorded h.table assertion
      have hValues := (recording.add_frame s.table assertion).2.1
      have hValues' := ((recording.recount recorded).add_frame t.table assertion).2.1
      refine ⟨hResult, h.mode, h.checking, ?_, (hValues'.trans h.values).trans hValues.symm,
        recorded', congrArg some hNext⟩
      rw [VariableTable.size, hValues]
      exact hTable

theorem constrain (h : s.Echoes t) (constraint : Constraint p) (label : Option String) :
    (Action.constrain constraint label t).1 = (Action.constrain constraint label s).1 ∧
      (Action.constrain constraint label s).2.Echoes (Action.constrain constraint label t).2 := by
  simp only [Action.constrain, Action.inMode, h.mode, h.checks, h.read]
  by_cases hIdle : s.mode = .idle
  · rw [if_pos hIdle, if_pos hIdle]
    exact ⟨rfl, h⟩
  rw [if_neg hIdle, if_neg hIdle]
  cases constraint.checkArity with
  | error fault => exact ⟨rfl, h⟩
  | ok _ =>
      cases (if Action.checks s then constraint.check label s.read else .ok ()) with
      | error fault => exact ⟨rfl, h⟩
      | ok _ => exact h.record ⟨label, constraint⟩

omit [Fact p.Prime] in
theorem count (h : s.Echoes t) (offered : Nat) : (s.count offered).Echoes t := by
  obtain ⟨recorded, hRecording⟩ := h.recording
  refine ⟨h.mode, h.checking, h.table, h.values, recorded, ?_⟩
  rw [hRecording, RunState.count, Option.map_map]
  rfl

theorem shorten (h : s.Echoes t) (searched : LinearForm p) : (s.shorten searched).Echoes t :=
  ⟨h.mode, h.checking, h.table.compress searched ⟨[], 0⟩, h.values, h.recording⟩

theorem finishCircuit (h : s.Echoes t) : ∃ recorded,
    (Action.finishCircuit t).1 = (Action.finishCircuit s).1.map (Circuit.recount recorded) := by
  obtain ⟨recorded, hRecording⟩ := h.recording
  refine ⟨recorded, ?_⟩
  cases hOwn : s.recording with
  | none =>
      rw [hOwn] at hRecording
      simp only [Action.finishCircuit, hOwn, hRecording]
      rfl
  | some recording =>
      rw [hOwn] at hRecording
      simp only [Action.finishCircuit, hOwn, hRecording]
      exact recording.finalize_recount recorded h.table

end Echoes

end RunState

/-- Add constraints one after the other, up to the first that fails. -/
def Action.constrainAll {p : Nat} [Modulus p] : List (Assertion p) → Action p Unit
  | [] => pure ()
  | assertion :: rest => do
    Action.constrain assertion.constraint assertion.label
    constrainAll rest

namespace RunState

variable {p : Nat} [Modulus p] {start state : RunState p} {accepted : List (Assertion p)}

theorem constrainAll_append {assertion : Assertion p} {middle last : RunState p}
    (h : Action.constrainAll accepted state = (.ok (), middle))
    (hLast : Action.constrain assertion.constraint assertion.label middle = (.ok (), last)) :
    Action.constrainAll (accepted ++ [assertion]) state = (.ok (), last) := by
  induction accepted generalizing state with
  | nil =>
      cases h
      simp only [List.nil_append, Action.constrainAll, bind, Stateful.andThen, hLast]
      rfl
  | cons first rest ih =>
      simp only [List.cons_append, Action.constrainAll, bind, Stateful.andThen] at h ⊢
      rcases hFirst : Action.constrain first.constraint first.label state with ⟨_ | _, next⟩
      · rw [hFirst] at h
        cases h
      · rw [hFirst] at h
        exact ih h

/-- The accepted constraints alone can be added again, and lead to a state that cannot be told
apart. -/
theorem Attempts.replay [Fact p.Prime] (h : start.Attempts accepted state)
    (hTable : start.table.WellFormed) :
    ∃ replayed, Action.constrainAll accepted start = (.ok (), replayed) ∧
      state.Echoes replayed := by
  induction h with
  | refl => exact ⟨start, rfl, .refl hTable⟩
  | @accepted accepted state next assertion prior hAdd ih =>
      obtain ⟨replayed, hReplay, hEchoes⟩ := ih
      obtain ⟨hResult, hNext⟩ := hEchoes.constrain assertion.constraint assertion.label
      rw [hAdd] at hResult hNext
      have hAgain : Action.constrain assertion.constraint assertion.label replayed =
          (.ok (), (Action.constrain assertion.constraint assertion.label replayed).2) :=
        Prod.ext hResult rfl
      exact ⟨_, constrainAll_append hReplay hAgain, hNext⟩
  | failed prior hFail ih =>
      obtain ⟨replayed, hReplay, hEchoes⟩ := ih
      refine ⟨replayed, hReplay, ?_⟩
      rcases RunState.constrain_error hFail with ⟨hState, -⟩ | ⟨-, -, -, hState⟩
      · rw [hState]
        exact hEchoes
      · rw [hState]
        exact hEchoes.count 1
  | shortened prior searched ih =>
      obtain ⟨replayed, hReplay, hEchoes⟩ := ih
      exact ⟨replayed, hReplay, hEchoes.shorten searched⟩

/-- Failed calls leave the recording intact. A primitive operation that fails in a reachable state
keeps the mode, the values, the number of public inputs, what waits and what was unified, and the
representative of every variable, whatever paths were shortened meanwhile. The count of offered
constraints moves only when the failure is a contradiction found by the classes, and then by one.
When constraints are added and some of them fail, adding the others alone succeeds and is finished
with the same result, up to that count. -/
theorem failed_calls_intact [Fact p.Prime] {mode : Mode} {visited : List (RunState p)}
    (hRun : (start.enter mode).Runs visited state) :
    (∀ (step : RunStep p) (stop : Stop), step.isPrimitive = true →
      (∀ constraint label, step = .constrain constraint label →
        ∀ x ∈ constraint.vars, x < state.table.size) →
      (step.action state).1 = .error stop →
      ∃ offered, (∀ searched, state.Intact offered ((step.action state).2.shorten searched)) ∧
        (offered = 0 ∧ ¬ state.Contradicted step stop ∨
          offered = 1 ∧ state.Contradicted step stop)) ∧
    ∀ (accepted : List (Assertion p)) (final : RunState p), state.Attempts accepted final →
      ∃ replayed recorded, Action.constrainAll accepted state = (.ok (), replayed) ∧
        (Action.finishCircuit replayed).1 =
          (Action.finishCircuit final).1.map (Circuit.recount recorded) := by
  have hLive := hRun.live
  constructor
  · intro step stop hStep hVars hFail
    obtain ⟨offered, hState, hOffered⟩ := hLive.primitive_error hStep hVars hFail
    refine ⟨offered, fun searched => ?_, hOffered⟩
    rw [hState]
    exact intact_count hLive.wellFormed offered searched
  · intro accepted final hAttempts
    obtain ⟨replayed, hReplay, hEchoes⟩ := hAttempts.replay hLive.wellFormed
    obtain ⟨recorded, hFinish⟩ := hEchoes.finishCircuit
    exact ⟨replayed, recorded, hReplay, hFinish⟩

/-- A variable that was set to one is set to zero as well, which fails and is counted, and then a
product is added. The product alone gives the same circuit. -/
theorem failed_calls_intact_contradiction :
    let state := RunStep.performAll
      ((RunState.idle Preset.aggressive.settings : RunState 7).enter .constraintGeneration)
      [.allocate, .allocate, .constrain (.equal (.var 0) 1) none]
    let failing : RunStep 7 := .constrain (.equal (.var 0) 0) none
    let product : Assertion 7 := ⟨none, .product (.var 1) (.var 1) (.var 1)⟩
    let failed := (failing.action state).2
    let final := (Action.constrain product.constraint product.label failed).2
    (failing.action state).1 = .error (.fault (.unsatisfied none "1 = 0" [])) ∧
      state.recording.map Recording.recorded = some 1 ∧
      failed.recording.map Recording.recorded = some 2 ∧
      (∀ x, failed.table.rep x = state.table.rep x) ∧
      ∃ replayed recorded, Action.constrainAll [product] state = (.ok (), replayed) ∧
        (Action.finishCircuit replayed).1 =
          (Action.finishCircuit final).1.map (Circuit.recount recorded) := by
  intro state failing product failed final
  have : Fact (Nat.Prime 7) := ⟨by decide⟩
  have hRun : ((RunState.idle Preset.aggressive.settings).enter .constraintGeneration).Runs _
      state := ((Runs.refl.next (.step .allocate)).next (.step .allocate)).next
        (.step (.constrain (.equal (.var 0) 1) none))
  have hFail : (failing.action state).1 = .error (.fault (.unsatisfied none "1 = 0" [])) := by
    decide +kernel
  have hVars : ∀ constraint label, failing = .constrain constraint label →
      ∀ x ∈ constraint.vars, x < state.table.size := by
    intro constraint label hEq
    obtain ⟨hConstraint, -⟩ := RunStep.constrain.inj hEq
    rw [← hConstraint]
    decide +kernel
  have hRefused : (Action.constrain (.equal (.var 0) 0) none state).1 =
      .error (.fault (.unsatisfied none "1 = 0" [])) := by decide +kernel
  have hFailed : state.Attempts [] failed := by
    rw [show failed = _ from congrArg Prod.snd (RunStep.constrain_action _ _ state)]
    exact @Attempts.failed 7 _ state [] state ⟨none, .equal (.var 0) 0⟩ _ .refl hRefused
  have hProduct : (Action.constrain product.constraint product.label failed).1 = .ok () := by
    decide +kernel
  obtain ⟨hIntact, hReplay⟩ := failed_calls_intact hRun
  obtain ⟨offered, hSame, -⟩ := hIntact failing _ rfl hVars hFail
  exact ⟨hFail, by decide +kernel, by decide +kernel, (hSame ⟨[], 0⟩).rep,
    hReplay [product] final (hFailed.accepted (Prod.ext hProduct rfl))⟩

end RunState

end ArithCircuit
