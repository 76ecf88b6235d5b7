import ArithCircuit.Proofs.Simulation
import ArithCircuit.Proofs.ValueIndependence

/-! Agreement of the modes. A circuit that a checking prover executes can be executed in any other
mode, with the same results. The states of two modes stay related by what the modes have in common:
the classes and the recording, or the values. -/
namespace ArithCircuit

namespace Action

variable {p : Nat} [Modulus p] {state : RunState p}

theorem record_checking (state : RunState p) (assertion : Assertion p) (checking : Bool) :
    record assertion { state with checking := checking } =
      ((record assertion state).1,
        { (record assertion state).2 with checking := checking }) := by
  obtain ⟨mode, table, recording, settings, _, blockDepth⟩ := state
  cases recording <;> rfl

theorem record_mode (state : RunState p) (assertion : Assertion p) :
    (record assertion state).2.mode = state.mode := by
  obtain ⟨mode, table, recording, settings, checking, blockDepth⟩ := state
  cases recording <;> rfl

/-- What has been recorded is lowered at the end. -/
theorem finishCircuit_eq_ok_iff {circuit : Circuit p} :
    (finishCircuit state).1 = .ok circuit ↔
      ∃ recording final, state.recording = some recording ∧
        recording.finalize state.table = (.ok circuit, final) := by
  rw [finishCircuit]
  cases hRecording : state.recording with
  | none =>
      constructor
      · intro h
        cases h
      · rintro ⟨recording, final, hSome, -⟩
        cases hSome
  | some recording =>
      constructor
      · intro h
        exact ⟨recording, _, rfl, Prod.ext h rfl⟩
      · rintro ⟨recording', final, hSame, hFinal⟩
        obtain rfl := Option.some.inj hSame
        simp only [hFinal]

/-- A circuit is built by executing its body and finishing what that recorded. -/
theorem circuitOf_eq_ok_iff {body : Action p Unit} {circuit : Circuit p} :
    (circuitOf body state).1 = .ok circuit ↔
      ∃ inner, body (state.enter .constraintGeneration) = (.ok (), inner) ∧
        (finishCircuit inner).1 = .ok circuit := by
  simp only [circuitOf, within_eq, bind, Stateful.andThen]
  rcases body (state.enter .constraintGeneration) with ⟨stop | _, inner⟩
  · simp
  · simp

omit [Modulus p] in
theorem witnessOf_eq_ok_iff {body : Action p Unit} {witness : Witness p} :
    (witnessOf body state).1 = .ok witness ↔
      ∃ inner, body (state.enter .witnessGeneration) = (.ok (), inner) ∧
        inner.witness = witness := by
  simp only [witnessOf, within_eq, bind, Stateful.andThen, finishWitness, Stateful.inspect]
  rcases body (state.enter .witnessGeneration) with ⟨stop | _, inner⟩
  · simp
  · simp

theorem prove_eq_ok_iff {body : Action p Unit} {circuit : Circuit p} {witness : Witness p} :
    (prove body state).1 = .ok (circuit, witness) ↔
      ∃ inner, body (state.enter .prover) = (.ok (), inner) ∧
        (finishCircuit inner).1 = .ok circuit ∧ inner.witness = witness := by
  simp only [prove, within_eq, bind, Stateful.andThen, finishWitness, Stateful.inspect]
  rcases body (state.enter .prover) with ⟨stop | _, inner⟩
  · simp
  · simp only
    rcases hFinish : finishCircuit inner with ⟨stop | built, final⟩
    · simp [hFinish]
    · simp [hFinish, pure, Stateful.ret]

end Action

namespace RunState

variable {p : Nat} [Modulus p] {s t : RunState p}

/-- A prover, and a state that records the same without values. -/
structure Blinds (s t : RunState p) : Prop where
  prover : s.mode = .prover
  mode : t.mode = .constraintGeneration
  table : ∃ values, values.size = s.table.size ∧
    t.table = s.table.withValues values
  recording : ∃ recording, s.recording = some recording ∧
    t.recording = some recording

/-- A checking prover, and a state that computes the same values without recording. -/
structure Watches (s t : RunState p) : Prop where
  prover : s.mode = .prover
  checking : s.checking = true
  mode : t.mode = .witnessGeneration
  values : s.table.values = t.table.values
  publicCount : s.table.publicCount = t.table.publicCount
  blockDepth : s.blockDepth = t.blockDepth
  recording : ∃ recording, s.recording = some recording ∧
    recording.settings.foldConstants = t.settings.foldConstants
  nothing : t.recording = none

/-- A prover, and the same one without checking. -/
structure Trusts (s t : RunState p) : Prop where
  prover : s.mode = .prover
  same : t = { s with checking := false }

omit [Modulus p] in
/-- Both tables may grow, to the same size and with the same classes. -/
theorem Blinds.modifyTable (h : s.Blinds t) {grow grow' : VariableTable p → VariableTable p}
    (hGrow : ∀ table values, values.size = table.size → ∃ values',
      values'.size = (grow table).size ∧
        grow' (table.withValues values) = (grow table).withValues values') :
    (s.modifyTable grow).Blinds (t.modifyTable grow') := by
  obtain ⟨values, hSize, hTable⟩ := h.table
  obtain ⟨values', hSize', hTable'⟩ := hGrow s.table values hSize
  refine ⟨h.prover, h.mode, ⟨values', hSize', ?_⟩, h.recording⟩
  show grow' t.table = _
  rw [hTable]
  exact hTable'

theorem blinds_simulates : Simulates (Blinds (p := p)) where
  active h := by simp [h.prover, h.mode]
  hasWitness h := by simp [h.prover, Mode.hasWitness]
  foldConstants h := by
    obtain ⟨recording, hs, ht⟩ := h.recording
    rw [foldConstants, foldConstants, hs, ht]
  size h := by
    obtain ⟨values, hSize, hTable⟩ := h.table
    rw [hTable, ← hSize]
    rfl
  publicCount h := by
    obtain ⟨values, -, hTable⟩ := h.table
    rw [hTable]
    rfl
  read h hWitness := by simp [h.mode, Mode.hasWitness] at hWitness
  blockDepth h hWitness := by simp [h.mode, Mode.hasWitness] at hWitness
  alloc {s t value value'} h _ := h.modifyTable fun table values hSize =>
    ⟨values.push value', by rw [Array.size_push, hSize, (table.alloc_grows value).size], rfl⟩
  allocPublic {s t value value'} h _ := h.modifyTable fun table values hSize =>
    ⟨values.push value', by rw [Array.size_push, hSize, (table.allocPublic_grows value).size], rfl⟩
  constrain constraint label := by
    intro s t a s' h hRun
    obtain ⟨-, hArity, -, hRecord⟩ := Action.constrain_eq_ok_iff.mp hRun
    obtain ⟨values, hSize, hTable⟩ := h.table
    obtain ⟨recording, hs, ht⟩ := h.recording
    rw [Action.record_of_some hs] at hRecord
    obtain ⟨hAdd, rfl⟩ := Prod.mk.inj hRecord
    have hRecord' := Action.record_of_some ht ⟨label, constraint⟩
    rw [hTable, Recording.add_withValues, hAdd] at hRecord'
    refine ⟨_, Action.constrain_eq_ok_iff.mpr ⟨by simp [h.mode], hArity,
      by simp [Action.checks, h.mode], hRecord'⟩, h.prover, h.mode, ⟨values, ?_, rfl⟩, _, rfl, rfl⟩
    rw [hSize]
    exact congrArg Array.size (recording.add_frame s.table ⟨label, constraint⟩).2.1.symm

omit [Modulus p] in
theorem watches_read (h : s.Watches t) : s.read = t.read := by
  have hValue : s.table.value = t.table.value := by
    funext x
    rw [VariableTable.value, VariableTable.value, h.values]
  funext e
  simp only [read, h.prover, h.mode, hValue, Mode.hasWitness, if_true]

theorem watches_simulates : Simulates (Watches (p := p)) where
  active h := by simp [h.prover, h.mode]
  hasWitness h := by simp [h.prover, Mode.hasWitness]
  foldConstants h := by
    obtain ⟨recording, hs, hFold⟩ := h.recording
    rw [foldConstants, foldConstants, hs, h.nothing]
    exact hFold
  size h := congrArg Array.size h.values
  publicCount h := h.publicCount
  read h _ := watches_read h
  blockDepth h _ := h.blockDepth
  alloc {s t value value'} h hSame := by
    obtain rfl := hSame (by simp [h.mode, Mode.hasWitness])
    exact { h with values := congrArg (Array.push · value) h.values }
  allocPublic {s t value value'} h hSame := by
    obtain rfl := hSame (by simp [h.mode, Mode.hasWitness])
    exact { h with
      values := congrArg (Array.push · value) h.values
      publicCount := congrArg (· + 1) h.publicCount }
  constrain constraint label := by
    intro s t a s' h hRun
    obtain ⟨-, hArity, hCheck, hRecord⟩ := Action.constrain_eq_ok_iff.mp hRun
    have hRead := watches_read h
    obtain ⟨recording, hs, hFold⟩ := h.recording
    rw [Action.record_of_some hs] at hRecord
    obtain ⟨-, rfl⟩ := Prod.mk.inj hRecord
    obtain ⟨hSettings, hValues, hPublic⟩ := recording.add_frame s.table ⟨label, constraint⟩
    refine ⟨t, Action.constrain_eq_ok_iff.mpr ⟨by simp [h.mode], hArity, fun _ => ?_,
      Action.record_of_none h.nothing _⟩, ?_⟩
    · rw [← hRead]
      exact hCheck (by simp [Action.checks, h.prover, h.checking])
    · exact { h with
        values := hValues.trans h.values
        publicCount := hPublic.trans h.publicCount
        recording := ⟨_, rfl, hSettings ▸ hFold⟩ }

omit [Modulus p] in
theorem Trusts.modifyTable (h : s.Trusts t) (grow : VariableTable p → VariableTable p) :
    (s.modifyTable grow).Trusts (t.modifyTable grow) := by
  obtain ⟨hProver, rfl⟩ := h
  exact ⟨hProver, rfl⟩

theorem trusts_simulates : Simulates (Trusts (p := p)) where
  active h := by simp [h.same, h.prover]
  hasWitness h := by simp [h.prover, Mode.hasWitness]
  foldConstants h := by
    rw [h.same]
    rfl
  size h := by rw [h.same]
  publicCount h := by rw [h.same]
  read h _ := by
    rw [h.same]
    rfl
  blockDepth h _ := by rw [h.same]
  alloc {s t value value'} h hSame := by
    obtain rfl := hSame (by simp [h.same, h.prover, Mode.hasWitness])
    exact h.modifyTable _
  allocPublic {s t value value'} h hSame := by
    obtain rfl := hSame (by simp [h.same, h.prover, Mode.hasWitness])
    exact h.modifyTable _
  constrain constraint label := by
    intro s t a s' h hRun
    obtain ⟨hActive, hArity, -, hRecord⟩ := Action.constrain_eq_ok_iff.mp hRun
    obtain ⟨hProver, rfl⟩ := h
    have hMode := Action.record_mode s ⟨label, constraint⟩
    have hTrusting := Action.record_checking s ⟨label, constraint⟩ false
    rw [hRecord] at hMode hTrusting
    refine ⟨_, Action.constrain_eq_ok_iff.mpr ⟨hActive, hArity, ?_, hTrusting⟩,
      hMode.trans hProver, rfl⟩
    simp [Action.checks, hProver]

/-- What a state without values records is finished to the circuit of the prover. -/
theorem Blinds.finishCircuit (h : s.Blinds t) {circuit : Circuit p}
    (hFinish : (Action.finishCircuit s).1 = .ok circuit) :
    (Action.finishCircuit t).1 = .ok circuit := by
  obtain ⟨recording, final, hs, hFinal⟩ := Action.finishCircuit_eq_ok_iff.mp hFinish
  obtain ⟨same, hSame, ht⟩ := h.recording
  obtain rfl : recording = same := Option.some.inj (hs.symm.trans hSame)
  obtain ⟨values, hSize, hTable⟩ := h.table
  refine Action.finishCircuit_eq_ok_iff.mpr ⟨recording, final.withValues values, ht, ?_⟩
  rw [hTable]
  exact Recording.finalize_withValues hSize hFinal

end RunState

/-- Without values, steps of the same shape are the same. -/
theorem CircuitStep.Alike.action_eq {p : Nat} [Modulus p] {step step' : CircuitStep p}
    (h : step.Alike step') {state : RunState p}
    (hMode : state.mode = .constraintGeneration) :
    step.action state = step'.action state := by
  have hIntroduce (count : Nat) (values values' : Env p → Except Stop (List (Residue p))) :
      Action.introduce count values state = Action.introduce count values' state := by
    simp [Action.introduce, Action.inMode, hMode, Mode.hasWitness]
  cases h with
  | same step => rfl
  | declarePublic count values values' =>
      show Action.declarePublic count values state = Action.declarePublic count values' state
      simp [Action.declarePublic, Action.inMode, hMode, Mode.hasWitness]
  | introduce count values values' => exact hIntroduce count values values'
  | compute value value' =>
      simp only [action, RunStep.action, Action.single, Action.compute, bind, Stateful.andThen]
      rw [hIntroduce]
  | proverBlock block block' =>
      simp [action, bind, Stateful.andThen, Action.proverBlock, Action.inMode, hMode,
        Mode.hasWitness]

namespace StraightLine

variable {p : Nat} [Modulus p] {circuit other : StraightLine p} {state state' : RunState p}
  {built : Circuit p} {witness : Witness p}

/-- A prover is followed by the mode without values, also on circuits of the same shape. -/
theorem run_follows_of_alike (h : circuit.Alike other) :
    Action.Follows RunState.Blinds other.run circuit.run := by
  refine runFrom_follows ?_ []
  refine h.flip.imp fun step' step hAlike results => ?_
  intro s t a s' hR hRun
  rw [(hAlike results).action_eq hR.mode]
  exact RunState.blinds_simulates.step _ s t a s' hR hRun

/-- The circuit of a prover is that of its shape. -/
theorem circuitOf_of_prove (h : circuit.Alike other) (hSettings : state'.settings = state.settings)
    (hProve : (Action.prove other.run state').1 = .ok (built, witness)) :
    (Action.circuitOf circuit.run state).1 = .ok built := by
  obtain ⟨inner, hRun, hFinish, -⟩ := Action.prove_eq_ok_iff.mp hProve
  have hStart : (state'.enter .prover).Blinds (state.enter .constraintGeneration) := by
    refine ⟨rfl, rfl, ⟨#[], rfl, rfl⟩, .start state.settings, ?_, rfl⟩
    show some (Recording.start state'.settings) = _
    rw [hSettings]
  obtain ⟨inner', hRun', hInner⟩ := run_follows_of_alike h _ _ () inner hStart hRun
  exact Action.circuitOf_eq_ok_iff.mpr ⟨inner', hRun', hInner.finishCircuit hFinish⟩

/-- All modes agree on a straight-line circuit. Where a checking prover succeeds, so do the mode
that only builds the circuit, the mode that only computes the values, and a prover without checking,
all with the same results. In any two provers that succeed on circuits of the same shape, whatever
values they are given and compute, the circuit is the same. -/
theorem modes_agree (circuit : StraightLine p) (state : RunState p)
    (hChecking : state.checking = true)
    (hProve : (Action.prove circuit.run state).1 = .ok (built, witness)) :
    (Action.circuitOf circuit.run state).1 = .ok built ∧
    (Action.witnessOf circuit.run state).1 = .ok witness ∧
    (Action.prove circuit.run { state with checking := false }).1 = .ok (built, witness) ∧
    ∀ (other : StraightLine p) (state' : RunState p), circuit.Alike other →
      state'.settings = state.settings →
      ∀ built' witness', (Action.prove other.run state').1 = .ok (built', witness') →
        built' = built := by
  have hCircuit : (Action.circuitOf circuit.run state).1 = .ok built :=
    circuitOf_of_prove (List.forall₂_same.mpr fun _ _ _ => .same _) rfl hProve
  obtain ⟨inner, hRun, hFinish, rfl⟩ := Action.prove_eq_ok_iff.mp hProve
  refine ⟨hCircuit, ?_, ?_, fun other state' hAlike hSettings built' witness' hOther => ?_⟩
  · have hStart : (state.enter .prover).Watches (state.enter .witnessGeneration) :=
      ⟨rfl, hChecking, rfl, rfl, rfl, rfl, ⟨_, rfl, rfl⟩, rfl⟩
    obtain ⟨inner', hRun', hInner⟩ :=
      run_follows RunState.watches_simulates circuit _ _ () inner hStart hRun
    refine Action.witnessOf_eq_ok_iff.mpr ⟨inner', hRun', ?_⟩
    rw [RunState.witness, RunState.witness, hInner.values, hInner.publicCount]
  · have hStart : (state.enter .prover).Trusts
        (RunState.enter { state with checking := false } .prover) := ⟨rfl, rfl⟩
    obtain ⟨inner', hRun', -, rfl⟩ :=
      run_follows RunState.trusts_simulates circuit _ _ () inner hStart hRun
    have hRecorded := Action.finishCircuit_eq_ok_iff.mp hFinish
    exact Action.prove_eq_ok_iff.mpr
      ⟨_, hRun', Action.finishCircuit_eq_ok_iff.mpr hRecorded, rfl⟩
  · have hSame := (circuitOf_of_prove hAlike hSettings hOther).symm.trans hCircuit
    exact Except.ok.inj hSame

/-- A quotient of a public input by a variable that is computed from it, which a block looks at. A
constraint relates the quotient to the public input. -/
theorem modes_agree_quotient :
    let circuit : Residue 7 → StraightLine 7 := fun x =>
      [fun _ => .operate (.declarePublic 1 (some [x])),
        fun results => .operate (.compute fun env =>
          (env.read (.add (results.getD 0 0) (results.getD 0 0))).mapError .fault),
        fun results => .proverBlock fun env =>
          if env.read (results.getD 1 0) = .ok 0 then .error .abort else .ok (),
        fun results => .operate (.div (results.getD 0 0) (results.getD 1 0) none),
        fun results => .operate (.constrain
          (.equal (.add (results.getD 2 0) (results.getD 2 0)) 1) none)]
    let state : RunState 7 := .idle .standard
    ∃ built witness witness',
      (Action.prove (circuit (.ofNat 7 3)).run state).1 = .ok (built, witness) ∧
      (Action.prove (circuit (.ofNat 7 5)).run state).1 = .ok (built, witness') ∧
      (Action.circuitOf (circuit (.ofNat 7 3)).run state).1 = .ok built ∧
      (Action.witnessOf (circuit (.ofNat 7 3)).run state).1 = .ok witness ∧
      witness.values[0]? ≠ witness'.values[0]? := by
  intro circuit state
  have hFirst : (Action.prove (circuit (.ofNat 7 3)).run state).1.toOption.map
      (fun made => made.2.values[0]?) = some (some (some (.ofNat 7 3))) := by decide +kernel
  have hSecond : (Action.prove (circuit (.ofNat 7 5)).run state).1.toOption.map
      (fun made => made.2.values[0]?) = some (some (some (.ofNat 7 5))) := by decide +kernel
  rcases hProve : (Action.prove (circuit (.ofNat 7 3)).run state).1 with _ | ⟨built, witness⟩
  · rw [hProve] at hFirst
    cases hFirst
  rcases hOther : (Action.prove (circuit (.ofNat 7 5)).run state).1 with _ | ⟨built', witness'⟩
  · rw [hOther] at hSecond
    cases hSecond
  obtain ⟨hCircuit, hWitness, -, hAgree⟩ := modes_agree _ state rfl hProve
  have hAlike : (circuit (.ofNat 7 3)).Alike (circuit (.ofNat 7 5)) :=
    .cons (fun _ => .declarePublic 1 _ _) (List.forall₂_same.mpr fun _ _ _ => .same _)
  obtain rfl := hAgree _ state hAlike rfl built' witness' hOther
  rw [hProve] at hFirst
  rw [hOther] at hSecond
  have hValue : witness.values[0]? = some (some (.ofNat 7 3)) := Option.some.inj hFirst
  have hValue' : witness'.values[0]? = some (some (.ofNat 7 5)) := Option.some.inj hSecond
  refine ⟨built', witness, witness', rfl, rfl, hCircuit, hWitness, ?_⟩
  rw [hValue, hValue']
  decide

end StraightLine

end ArithCircuit
