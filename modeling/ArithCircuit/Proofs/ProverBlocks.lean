import ArithCircuit.Proofs.Reachable
import ArithCircuit.Proofs.Simulation

/-! The depth of prover blocks. A block that returns or is refused leaves everything as it was, and
a block that gives up stays counted in the frame that is live. The depth of a frame is therefore the
number of blocks given up in it, through modes that are entered and left, frames that are discarded
and operations that fail. Where no block has been given up, only blocks see that they are blocks. -/
namespace ArithCircuit

namespace Action

variable {p : Nat} [Modulus p] {α : Type}

/-- Everything that a prover block can do: it is refused or passed over, or it runs, sees that it is
a block, and leaves a trace exactly if it gives up. -/
theorem proverBlock_cases (block : Env p → Except Stop α) (state : RunState p) :
    (∃ fault, proverBlock block state = (.error (.fault fault), state)) ∨
    proverBlock block state = (.ok none, state) ∨
    (∃ a, block ⟨state.read, true⟩ = .ok a ∧ proverBlock block state = (.ok (some a), state)) ∨
    block ⟨state.read, true⟩ = .error .abort ∧ proverBlock block state = (.error .abort,
      { state with blockDepth := state.blockDepth + 1 }) := by
  by_cases hIdle : state.mode = .idle
  · exact .inl ⟨_, if_pos hIdle⟩
  have hEnter : proverBlock block state = _ := if_neg hIdle
  by_cases hWitness : state.mode.hasWitness = true
  · simp only [hWitness, if_true, state.blockEnv] at hEnter
    cases hBlock : block ⟨state.read, true⟩ with
    | ok a =>
        rw [hBlock] at hEnter
        exact .inr (.inr (.inl ⟨a, rfl, hEnter⟩))
    | error stop =>
        rw [hBlock] at hEnter
        cases stop with
        | fault fault => exact .inl ⟨fault, hEnter⟩
        | abort => exact .inr (.inr (.inr ⟨rfl, hEnter⟩))
  · rw [if_neg hWitness] at hEnter
    exact .inr (.inl hEnter)

/-- A block that does not give up changes nothing. -/
theorem proverBlock_state {block : Env p → Except Stop α} {state : RunState p}
    (hEnds : (proverBlock block state).1 ≠ .error .abort) :
    (proverBlock block state).2 = state := by
  rcases proverBlock_cases block state with
    ⟨fault, hRun⟩ | hRun | ⟨a, -, hRun⟩ | ⟨-, hRun⟩
  · rw [hRun]
  · rw [hRun]
  · rw [hRun]
  · rw [hRun] at hEnds
    exact absurd rfl hEnds

/-- A block that gives up stays counted, and changes nothing else. -/
theorem proverBlock_state_of_abort {block : Env p → Except Stop α} {state : RunState p}
    (hAbort : (proverBlock block state).1 = .error .abort) :
    (proverBlock block state).2 =
      { state with blockDepth := state.blockDepth + 1 } := by
  rcases proverBlock_cases block state with
    ⟨fault, hRun⟩ | hRun | ⟨a, -, hRun⟩ | ⟨-, hRun⟩
  · rw [hRun] at hAbort
    cases hAbort
  · rw [hRun] at hAbort
    cases hAbort
  · rw [hRun] at hAbort
    cases hAbort
  · rw [hRun]

/-- A block is only ever shown the values and that it is a block. -/
theorem proverBlock_env (block : Env p → Except Stop α) (state : RunState p) :
    proverBlock block state = proverBlock (fun _ => block ⟨state.read, true⟩) state := by
  simp only [proverBlock, inMode, state.blockEnv]

omit [Modulus p] in
/-- A computation of values is only ever shown the environment of the state. -/
theorem introduce_env (count : Nat) (values : Env p → Except Stop (List (Residue p)))
    (state : RunState p) :
    introduce count values state = introduce count (fun _ => values state.env) state := rfl

omit [Modulus p] in
theorem compute_env (value : Env p → Except Stop (Residue p)) (state : RunState p) :
    compute value state = compute (fun _ => value state.env) state := rfl

end Action

namespace RunState

variable {p : Nat} [Modulus p] {state : RunState p} {depth : Nat}

theorem constrain_blockDepth (constraint : Constraint p) (label : Option String)
    (state : RunState p) :
    (Action.constrain constraint label state).2.blockDepth = state.blockDepth := by
  rcases Action.constrain_cases state constraint label with
    ⟨fault, hRefused, -⟩ | ⟨-, -, -, hRecord⟩
  · rw [hRefused]
  · rw [hRecord]
    cases hRecording : state.recording with
    | none => rw [Action.record_of_none hRecording]
    | some recording => rw [Action.record_of_some hRecording]

theorem blockDepth_invariant :
    RunState.Invariant fun state : RunState p => state.blockDepth = depth where
  alloc h _ := h
  allocPublic h _ _ _ := h
  constrain label h _ := (constrain_blockDepth _ label _).trans h

/-- No operation of a circuit counts as a block, whether it succeeds or not. -/
theorem perform_blockDepth (step : RunStep p) (state : RunState p) :
    (step.perform state).blockDepth = state.blockDepth :=
  RunStep.perform_keeps blockDepth_invariant rfl fun constraint label _ =>
    constrain_blockDepth constraint label state

theorem finishCircuit_blockDepth (state : RunState p) :
    (Action.finishCircuit state).2.blockDepth = state.blockDepth := by
  cases hRecording : state.recording with
  | none =>
      simp only [Action.finishCircuit, hRecording]
      rfl
  | some recording => simp only [Action.finishCircuit, hRecording]

/-- A run through any number of modes, with the states that wait for the live mode to be left. Each
state comes with the number of blocks that were given up in its frame. -/
inductive History : List (RunState p × Nat) → Nat → RunState p → Prop where
  | start (settings : Settings) : History [] 0 (.idle settings)
  | operation {waiting : List (RunState p × Nat)} {lost : Nat} {state : RunState p}
      (prior : History waiting lost state) (step : RunStep p) :
      History waiting lost (step.perform state)
  | block {waiting : List (RunState p × Nat)} {lost : Nat} {state : RunState p}
      (prior : History waiting lost state) {α : Type} (block : Env p → Except Stop α)
      (hEnds : (Action.proverBlock block state).1 ≠ .error .abort) :
      History waiting lost (Action.proverBlock block state).2
  | lostBlock {waiting : List (RunState p × Nat)} {lost : Nat} {state : RunState p}
      (prior : History waiting lost state) {α : Type} (block : Env p → Except Stop α)
      (hAbort : (Action.proverBlock block state).1 = .error .abort) :
      History waiting (lost + 1) (Action.proverBlock block state).2
  | settings {waiting : List (RunState p × Nat)} {lost : Nat} {state : RunState p}
      (prior : History waiting lost state) (settings : Settings) :
      History waiting lost (Action.setSettings settings state).2
  | checking {waiting : List (RunState p × Nat)} {lost : Nat} {state : RunState p}
      (prior : History waiting lost state) (checking : Bool) :
      History waiting lost (Action.setChecking checking state).2
  | finish {waiting : List (RunState p × Nat)} {lost : Nat} {state : RunState p}
      (prior : History waiting lost state) :
      History waiting lost (Action.finishCircuit state).2
  | reset {waiting : List (RunState p × Nat)} {lost : Nat} {state : RunState p}
      (prior : History waiting lost state) : History waiting 0 (Action.reset state).2
  | enter {waiting : List (RunState p × Nat)} {lost : Nat} {state : RunState p}
      (prior : History waiting lost state) (mode : Mode) :
      History ((state, lost) :: waiting) 0 (state.enter mode)
  | leave {waiting : List (RunState p × Nat)} {lost : Nat} {state : RunState p}
      {outer : RunState p × Nat} (prior : History (outer :: waiting) lost state) :
      History waiting outer.2 (state.backTo outer.1)

namespace History

variable {waiting : List (RunState p × Nat)} {lost : Nat}

/-- The depth of every frame, live or waiting, is the number of blocks given up in it. -/
theorem blockDepth (h : History waiting lost state) :
    state.blockDepth = lost ∧ ∀ outer ∈ waiting, outer.1.blockDepth = outer.2 := by
  induction h with
  | start settings => exact ⟨rfl, fun outer hOuter => absurd hOuter List.not_mem_nil⟩
  | operation prior step ih => exact ⟨(perform_blockDepth step _).trans ih.1, ih.2⟩
  | block prior block hEnds ih => exact ⟨by rw [Action.proverBlock_state hEnds, ih.1], ih.2⟩
  | lostBlock prior block hAbort ih =>
      refine ⟨?_, ih.2⟩
      rw [Action.proverBlock_state_of_abort hAbort]
      exact congrArg (· + 1) ih.1
  | settings prior settings ih => exact ih
  | checking prior checking ih => exact ih
  | finish prior ih => exact ⟨(finishCircuit_blockDepth _).trans ih.1, ih.2⟩
  | reset prior ih => exact ⟨rfl, ih.2⟩
  | enter prior mode ih => exact ⟨rfl, List.forall_mem_cons.mpr ih⟩
  | leave prior ih => exact List.forall_mem_cons.mp ih.2

theorem inBlock (h : History waiting lost state) : state.inBlock = decide (0 < lost) := by
  rw [RunState.inBlock, h.blockDepth.1]

/-- Prover blocks are counted exactly. In every run, the depth grows by one with a block that gives
up in the live mode and with nothing else: after any other block the state is what it was before.
Between calls the run is in a block exactly if one was given up since the mode was entered. Blocks
always see that they are blocks, and the computations of new values see that they are in one exactly
if a block was given up; where none was, they see that they are not. -/
theorem prover_blocks_counted (h : History waiting lost state) :
    state.blockDepth = lost ∧ (∀ outer ∈ waiting, outer.1.blockDepth = outer.2) ∧
    (state.inBlock = true ↔ 0 < lost) ∧
    (∀ {α : Type} (block : Env p → Except Stop α),
      Action.proverBlock block state =
          Action.proverBlock (fun _ => block ⟨state.read, true⟩) state ∧
        ((Action.proverBlock block state).1 ≠ .error .abort →
          (Action.proverBlock block state).2 = state) ∧
        ((Action.proverBlock block state).1 = .error .abort →
          (Action.proverBlock block state).2.blockDepth = lost + 1)) ∧
    (∀ count values, Action.introduce count values state =
      Action.introduce count (fun _ => values ⟨state.read, decide (0 < lost)⟩) state) ∧
    ∀ value, Action.compute value state =
      Action.compute (fun _ => value ⟨state.read, decide (0 < lost)⟩) state := by
  have hEnv : state.env = ⟨state.read, decide (0 < lost)⟩ := by rw [env, h.inBlock]
  refine ⟨h.blockDepth.1, h.blockDepth.2, ?_, fun block => ⟨?_, ?_, fun hAbort => ?_⟩, ?_, ?_⟩
  · rw [h.inBlock, decide_eq_true_iff]
  · exact Action.proverBlock_env block state
  · exact Action.proverBlock_state
  · exact (h.lostBlock block hAbort).blockDepth.1
  · intro count values
    rw [Action.introduce_env, hEnv]
  · intro value
    rw [Action.compute_env, hEnv]

/-- A block that gives up in a mode inside a mode, which is then left. The enclosing mode has lost
no block, and what is computed there sees none. -/
theorem prover_blocks_counted_after_nesting :
    let outer : RunState 7 := (RunState.idle Preset.debug.settings).enter .witnessGeneration
    let inner := (Action.proverBlock (fun _ => (.error .abort : Except Stop Unit))
      (outer.enter .prover)).2
    let state := inner.backTo outer
    (∃ waiting, History waiting 0 state) ∧ inner.inBlock = true ∧ state.inBlock = false ∧
      ∀ value, Action.compute value state =
        Action.compute (fun _ => value ⟨state.read, false⟩) state := by
  intro outer inner state
  have hOuter : History [(.idle Preset.debug.settings, 0)] 0 outer := (start _).enter _
  have hInner : History _ 1 inner := (hOuter.enter .prover).lostBlock _ rfl
  have hState : History [(.idle Preset.debug.settings, 0)] 0 state := hInner.leave
  obtain ⟨-, -, hBlock, -, -, hCompute⟩ := prover_blocks_counted hState
  refine ⟨⟨_, hState⟩, rfl, ?_, hCompute⟩
  exact Bool.eq_false_iff.mpr fun hTrue => absurd (hBlock.mp hTrue) (Nat.lt_irrefl 0)

/-- Blocks are not balanced when one gives up and its mode goes on: the depth stays raised, the run
takes itself to be in a block, and so does a computation outside of all blocks. -/
theorem lost_block_stays_open :
    let before : RunState 7 := (RunState.idle Preset.aggressive.settings).enter .witnessGeneration
    let after := (Action.proverBlock (fun _ => (.error .abort : Except Stop Unit)) before).2
    (∃ waiting lost, History waiting lost after) ∧ after.mode = .witnessGeneration ∧
      before.blockDepth = 0 ∧ after.blockDepth = 1 ∧ after.inBlock = true ∧
      (Action.compute (fun env => .ok (if env.inBlock then 1 else 0)) after).2.witness =
        ⟨#[some 1], 0⟩ := by
  intro before after
  have hBefore : History [(.idle Preset.aggressive.settings, 0)] 0 before := (start _).enter _
  exact ⟨⟨_, _, hBefore.lostBlock _ rfl⟩, rfl, rfl, rfl, rfl, by decide +kernel⟩

end History

end RunState

end ArithCircuit
