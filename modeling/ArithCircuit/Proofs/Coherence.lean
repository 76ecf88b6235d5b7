import ArithCircuit.Proofs.LiveWires
import ArithCircuit.Proofs.Reachable

/-! The invariant of a run. A state is made of a mode, a table of variables and a recording, which
entering and leaving modes, discarding a frame, allocation and constraints change separately. In
every state that a run can reach, and in every state that waits for a mode to be left, they fit
together. -/
namespace ArithCircuit

/-- The parts of a frame fit together. -/
structure Frame.Coherent {p : Nat} [Modulus p] (frame : Frame p) : Prop where
  recording : frame.recording.isSome = true ↔
    frame.mode = .constraintGeneration ∨ frame.mode = .prover
  idle : frame.mode = .idle → frame.table = .empty
  sized : frame.table.classes.size = frame.table.values.size
  publicCount_le : frame.table.publicCount ≤ frame.table.values.size
  public_representative : ∀ i < frame.table.publicCount, frame.table.IsRepresentative i
  /-- Constraints are generated without values. -/
  unvalued : frame.mode = .constraintGeneration → ∀ value ∈ frame.table.values, value = none
  /-- Witnesses are generated without classes. -/
  unrelated : frame.mode = .witnessGeneration →
    ∀ x < frame.table.size, frame.table.IsRepresentative x

/-- Allocation without values. -/
theorem VariableTable.foldl_unvalued {p : Nat}
    {add : VariableTable p → Option (Residue p) → VariableTable p}
    (hAdd : ∀ table value, (add table value).values = table.values.push value)
    {values : List (Option (Residue p))} (hValues : ∀ value ∈ values, value = none)
    {table : VariableTable p} (hTable : ∀ value ∈ table.values, value = none) :
    ∀ value ∈ (values.foldl add table).values, value = none := by
  induction values generalizing table with
  | nil => exact hTable
  | cons first rest ih =>
      obtain ⟨hFirst, hRest⟩ := List.forall_mem_cons.mp hValues
      apply ih hRest
      intro value hValue
      rw [hAdd, Array.mem_push] at hValue
      rcases hValue with hOld | hNew
      · exact hTable value hOld
      · exact hNew.trans hFirst

namespace RunState

variable {p : Nat} [Modulus p] {mode : Mode} {state next : RunState p}

/-- A live state whose table has what its mode allows: no variables outside of all modes, no values
unless they are computed, and no classes unless constraints are recorded. -/
structure Confined (mode : Mode) (state : RunState p) : Prop extends state.Live mode where
  idle : mode = .idle → state.table = .empty
  unvalued : mode.hasWitness = false → ∀ value ∈ state.table.values, value = none
  unrelated : mode.records = false → ∀ x, state.table.rep x = .ofVar x

namespace Confined

theorem enter (state : RunState p) (mode : Mode) : (state.enter mode).Confined mode where
  toLive := .enter state mode
  idle _ := rfl
  unvalued _ value hValue := absurd hValue (Array.not_mem_empty value)
  unrelated _ x := VariableTable.rep_of_le VariableTable.empty_wellFormed (Nat.zero_le x)

theorem transfer (h : state.Confined mode) (hMode : next.mode = state.mode)
    (hTable : next.table = state.table)
    (hRecording : next.recording = state.recording) : next.Confined mode where
  mode_eq := hMode.trans h.mode_eq
  wellFormed := hTable ▸ h.wellFormed
  recording := hRecording ▸ h.recording
  idle := hTable ▸ h.idle
  unvalued := hTable ▸ h.unvalued
  unrelated := hTable ▸ h.unrelated

/-- A new table in an active mode. -/
theorem enlarge (h : state.Confined mode) (hLive : next.Live mode)
    (hActive : state.mode ≠ .idle)
    (hTable : state.table.Enlarges next.table)
    (hValues : mode.hasWitness = false → ∀ value ∈ next.table.values, value = none) :
    next.Confined mode where
  toLive := hLive
  idle hIdle := absurd (h.mode_eq.trans hIdle) hActive
  unvalued := hValues
  unrelated hNone x := (hTable.rep x).trans (h.unrelated hNone x)

/-- Constraints change nothing where they are not recorded. -/
theorem constrain_eq_of_not_records (h : state.Live mode) (hNone : mode.records = false)
    (constraint : Constraint p) (label : Option String) :
    (Action.constrain constraint label state).2 = state := by
  have hRecording : state.recording = none := by
    rw [← Option.not_isSome_iff_eq_none, h.recording, hNone]
    exact Bool.false_ne_true
  rcases Action.constrain_cases state constraint label with
    ⟨fault, hRefused, -⟩ | ⟨-, -, -, hRecord⟩
  · rw [hRefused]
  · rw [hRecord, Action.record_of_none hRecording]

theorem constrain [Fact p.Prime] (h : state.Confined mode) (constraint : Constraint p)
    (label : Option String) : (Action.constrain constraint label state).2.Confined mode := by
  cases hRecords : mode.records with
  | false =>
      rw [constrain_eq_of_not_records h.toLive hRecords]
      exact h
  | true =>
      obtain ⟨-, -, -, hTable⟩ :=
        constrain_frame (rfl : (Action.constrain constraint label state).2 = _)
      refine ⟨h.toLive.constrain constraint label, fun hIdle => ?_, fun hNone => ?_,
        fun hNone => ?_⟩
      · rw [hIdle] at hRecords
        cases hRecords
      · rcases hTable with hSame | ⟨-, settings, hAbsorb⟩
        · rw [hSame]
          exact h.unvalued hNone
        · rw [(VariableTable.absorb_absorbed h.wellFormed hAbsorb).values]
          exact h.unvalued hNone
      · rw [hNone] at hRecords
        cases hRecords

theorem invariant [Fact p.Prime] : RunState.Invariant (Confined (p := p) mode) where
  alloc h hAllocates := h.enlarge (h.toLive.alloc _) hAllocates.1
    (VariableTable.foldl_alloc_enlarges h.wellFormed _)
    fun hNone => VariableTable.foldl_unvalued (fun _ _ => rfl)
      (hAllocates.2 (h.toLive.hasWitness.trans hNone)) (h.unvalued hNone)
  allocPublic h hAllocates hPublic _ := h.enlarge (h.toLive.allocPublic hPublic _) hAllocates.1
    (VariableTable.foldl_allocPublic_enlarges h.wellFormed hPublic _)
    fun hNone => VariableTable.foldl_unvalued (fun _ _ => rfl)
      (hAllocates.2 (h.toLive.hasWitness.trans hNone)) (h.unvalued hNone)
  constrain label h _ := h.constrain _ label

/-- Every call keeps the table within its mode. -/
theorem call [Fact p.Prime] (h : state.Confined mode) (hNext : state.Next next) :
    next.Confined mode := by
  rcases hNext.cases with ⟨step, rfl⟩ | ⟨hMode, hTable, hRecording⟩
  · exact RunStep.perform_keeps invariant h fun constraint label _ => h.constrain constraint label
  · exact h.transfer hMode hTable hRecording

theorem coherent (h : state.Confined mode) : state.frame.Coherent := by
  obtain ⟨⟨rfl, hTable, hRecording⟩, hIdle, hUnvalued, hUnrelated⟩ := h
  refine ⟨?_, hIdle, hTable.sized, hTable.publicCount_le, fun i hi => ?_, fun hMode => ?_,
    fun hMode x hx => ⟨hx, ?_⟩⟩
  · show state.recording.isSome = true ↔
      state.mode = .constraintGeneration ∨ state.mode = .prover
    rw [hRecording]
    cases state.mode <;> simp [Mode.records]
  · exact (hTable.public_free i hi).isRepresentative hTable
  · exact hUnvalued (congrArg Mode.hasWitness hMode)
  · exact hUnrelated (congrArg Mode.records hMode) x

end Confined

/-- The states that a run reaches, with those that wait for the modes entered since. A mode is left
with or without a circuit or a witness being taken from it. -/
inductive Reachable : List (RunState p) → RunState p → Prop where
  | start (settings : Settings) : Reachable [] (.idle settings)
  | call {waiting : List (RunState p)} {state next : RunState p}
      (prior : Reachable waiting state) (hNext : state.Next next) : Reachable waiting next
  | reset {waiting : List (RunState p)} {state : RunState p} (prior : Reachable waiting state) :
      Reachable waiting (Action.reset state).2
  | enter {waiting : List (RunState p)} {state : RunState p} (prior : Reachable waiting state)
      (mode : Mode) : Reachable (state :: waiting) (state.enter mode)
  | leave {waiting : List (RunState p)} {state outer : RunState p}
      (prior : Reachable (outer :: waiting) state) : Reachable waiting (state.backTo outer)
  | finish {waiting : List (RunState p)} {state outer : RunState p}
      (prior : Reachable (outer :: waiting) state) :
      Reachable waiting ((Action.finishCircuit state).2.backTo outer)

namespace Reachable

variable {waiting : List (RunState p)}

theorem confined [Fact p.Prime] (h : Reachable waiting state) :
    (∃ mode, state.Confined mode) ∧ ∀ outer ∈ waiting, ∃ mode, outer.Confined mode := by
  induction h with
  | start settings =>
      have hIdle := Confined.enter (RunState.idle settings : RunState p) .idle
      exact ⟨⟨.idle, hIdle.transfer rfl rfl rfl⟩, by simp⟩
  | call prior hNext ih =>
      obtain ⟨⟨mode, hState⟩, hWaiting⟩ := ih
      exact ⟨⟨mode, hState.call hNext⟩, hWaiting⟩
  | @reset waiting state prior ih =>
      exact ⟨⟨.idle, (Confined.enter state .idle).transfer rfl rfl rfl⟩, ih.2⟩
  | enter prior mode ih => exact ⟨⟨mode, .enter _ mode⟩, List.forall_mem_cons.mpr ih⟩
  | leave prior ih =>
      -- the frame that waited is live again
      obtain ⟨⟨mode, hOuter⟩, hWaiting⟩ := List.forall_mem_cons.mp ih.2
      exact ⟨⟨mode, hOuter.transfer rfl rfl rfl⟩, hWaiting⟩
  | finish prior ih =>
      obtain ⟨⟨mode, hOuter⟩, hWaiting⟩ := List.forall_mem_cons.mp ih.2
      exact ⟨⟨mode, hOuter.transfer rfl rfl rfl⟩, hWaiting⟩

/-- The reachable states are coherent. In every run of mode entries and exits, resets, settings,
allocations, gadgets and constraints, successful or not, the parts of the live frame and of all that
wait fit together. -/
theorem frames_coherent [Fact p.Prime] (h : Reachable waiting state) :
    state.frame.Coherent ∧ ∀ outer ∈ waiting, outer.frame.Coherent := by
  obtain ⟨⟨mode, hState⟩, hWaiting⟩ := h.confined
  refine ⟨hState.coherent, fun outer hOuter => ?_⟩
  obtain ⟨mode', hConfined⟩ := hWaiting outer hOuter
  exact hConfined.coherent

/-- A prover binds a variable to its public input, and constraints are generated meanwhile. In the
prover's frame the variable has lost its class to the public input, which still represents its
own. -/
theorem frames_coherent_nested :
    let start : RunState 7 := (RunState.idle Preset.aggressive.settings).enter .prover
    let declared := (RunStep.declarePublic 1 (some [1])).perform start
    let computed := (RunStep.compute fun _ => .ok 1).perform declared
    let bound := (RunStep.constrain (.equal (.var 1) (.var 0)) none).perform computed
    let inner := RunStep.allocate.perform (bound.enter .constraintGeneration)
    bound.table.rep 1 = .var 0 1 0 ∧ inner.frame.Coherent ∧ bound.frame.Coherent := by
  intro start declared computed bound inner
  have : Fact (Nat.Prime 7) := ⟨by decide⟩
  have hBound : Reachable [.idle Preset.aggressive.settings] bound :=
    ((((Reachable.start _).enter .prover).call (.step _)).call (.step _)).call (.step _)
  have hInner : Reachable [bound, .idle Preset.aggressive.settings] inner :=
    (hBound.enter .constraintGeneration).call (.step .allocate)
  obtain ⟨hCoherent, hWaiting⟩ := frames_coherent hInner
  exact ⟨by decide +kernel, hCoherent, hWaiting bound List.mem_cons_self⟩

end Reachable

end RunState

end ArithCircuit
