import ArithCircuit.Proofs.ProverRun

/-! The states that a run reaches in one mode. Their tables satisfy the rules of the classes,
whatever operands the operations were given. Where every constraint has been checked against values,
the values moreover agree with the classes, however they are continued. -/
namespace ArithCircuit

namespace VariableTable

variable {p : Nat} [Modulus p] {table next : VariableTable p}

/-- A table with more variables and the same classes. -/
structure Enlarges (before after : VariableTable p) : Prop where
  wellFormed : after.WellFormed
  rep : ∀ x, after.rep x = before.rep x
  valuesIn : before.ValuesIn after

namespace Enlarges

theorem refl (hTable : table.WellFormed) : table.Enlarges table :=
  ⟨hTable, fun _ => rfl, fun _ _ h => h⟩

theorem trans {final : VariableTable p} (h : table.Enlarges next) (hNext : next.Enlarges final) :
    table.Enlarges final :=
  ⟨hNext.wellFormed, fun x => (hNext.rep x).trans (h.rep x),
    fun x y hy => hNext.valuesIn x y (h.valuesIn x y hy)⟩

theorem of_grows (hGrows : table.Grows next) (hTable : table.WellFormed) (hNext : next.WellFormed)
    {value : Option (Residue p)} (hValues : next.values = table.values.push value) :
    table.Enlarges next :=
  ⟨hNext, hGrows.rep hTable, valuesIn_of_push hValues⟩

theorem consistent_iff (h : table.Enlarges next) (w : Nat → Residue p) :
    next.Consistent w ↔ table.Consistent w :=
  forall_congr' fun x => by rw [h.rep x]

end Enlarges

theorem foldl_alloc_enlarges (hTable : table.WellFormed) (values : List (Option (Residue p))) :
    table.Enlarges (values.foldl alloc table) := by
  induction values generalizing table with
  | nil => exact .refl hTable
  | cons value rest ih =>
      have hNext := alloc_wellFormed hTable value
      exact (Enlarges.of_grows (alloc_grows table value) hTable hNext rfl).trans (ih hNext)

theorem foldl_allocPublic_enlarges (hTable : table.WellFormed)
    (hPublic : table.size = table.publicCount) (values : List (Option (Residue p))) :
    table.Enlarges (values.foldl allocPublic table) := by
  induction values generalizing table with
  | nil => exact .refl hTable
  | cons value rest ih =>
      have hGrows := allocPublic_grows table value
      have hNext := allocPublic_wellFormed hTable hPublic value
      have hSize := hGrows.size.trans (congrArg (· + 1) hPublic)
      exact (Enlarges.of_grows hGrows hTable hNext rfl).trans (ih hNext hSize)

end VariableTable

/-- Everything that recording an assertion can do. -/
theorem Recording.add_cases {p : Nat} [Modulus p] (recording : Recording p)
    (table : VariableTable p) (assertion : Assertion p) :
    (∃ stop recording', recording.add table assertion = (.error stop, recording', table) ∧
      (assertion.constraint.checkArity = .ok () →
        table.absorb recording.settings assertion = .error stop)) ∨
    (∃ recording' next, recording.add table assertion = (.ok (), recording', next) ∧
      recording'.waiting = recording.waiting ∧
      table.absorb recording.settings assertion = .ok (.absorbed next)) ∨
    ∃ recording', recording.add table assertion = (.ok (), recording', table) ∧
      recording'.waiting = recording.waiting.push
        ⟨assertion.label, table.offered recording.settings assertion.constraint⟩ := by
  obtain ⟨settings, waiting, recorded, unified⟩ := recording
  cases hArity : assertion.constraint.checkArity with
  | error fault =>
      refine .inl ⟨.fault fault, ⟨settings, waiting, recorded, unified⟩, ?_, fun h => by cases h⟩
      simp only [add, hArity]
  | ok _ =>
      cases hAbsorb : table.absorb settings assertion with
      | error stop =>
          refine .inl ⟨stop, ⟨settings, waiting, recorded + 1, unified⟩, ?_, fun _ => rfl⟩
          simp only [add, hArity, hAbsorb]
      | ok absorption =>
          cases absorption with
          | absorbed next =>
              refine .inr (.inl
                ⟨⟨settings, waiting, recorded + 1, unified + 1⟩, next, ?_, rfl, rfl⟩)
              simp only [add, hArity, hAbsorb]
          | kept kept =>
              refine .inr (.inr ⟨⟨settings, waiting.push kept, recorded + 1, unified⟩, ?_, ?_⟩)
              · simp only [add, hArity, hAbsorb]
              · rw [VariableTable.absorb_kept hAbsorb]

namespace RunState

variable {p : Nat} [Modulus p] {mode : Mode} {state next : RunState p}

/-- A state of a run in a mode. -/
structure Live (mode : Mode) (state : RunState p) : Prop where
  mode_eq : state.mode = mode
  wellFormed : state.table.WellFormed
  recording : state.recording.isSome = mode.records

/-- The values agree with the classes, however they are continued. -/
def Grounded (state : RunState p) : Prop :=
  ∀ w, state.table.ValuedBy w → state.table.Consistent w

/-- What adding a constraint can do to a state, whether it succeeds or not: at most, the classes
absorb the constraint after it has passed its check. -/
theorem constrain_frame {constraint : Constraint p} {label : Option String}
    (hNext : (Action.constrain constraint label state).2 = next) :
    next.mode = state.mode ∧ next.checking = state.checking ∧
      next.recording.isSome = state.recording.isSome ∧
      (next.table = state.table ∨
        (Action.checks state = true → constraint.check label state.read = .ok ()) ∧
        ∃ settings, state.table.absorb settings ⟨label, constraint⟩ =
          .ok (.absorbed next.table)) := by
  subst hNext
  rcases Action.constrain_cases state constraint label with
    ⟨fault, hRefused, -⟩ | ⟨-, -, hCheck, hRecord⟩
  · rw [hRefused]
    exact ⟨rfl, rfl, rfl, .inl rfl⟩
  · rw [hRecord]
    cases hRecording : state.recording with
    | none =>
        rw [Action.record_of_none hRecording, hRecording]
        exact ⟨rfl, rfl, rfl, .inl rfl⟩
    | some recording =>
        rw [Action.record_of_some hRecording]
        refine ⟨rfl, rfl, rfl, ?_⟩
        rcases recording.add_cases state.table ⟨label, constraint⟩ with
          ⟨stop, recording', hAdd, -⟩ | ⟨recording', table, hAdd, -, hAbsorb⟩ |
          ⟨recording', hAdd, -⟩
        · exact .inl (by rw [hAdd])
        · exact .inr ⟨hCheck, _, by rw [hAbsorb, hAdd]⟩
        · exact .inl (by rw [hAdd])

omit [Modulus p] in
/-- A block that gives up is counted, and nothing else changes. -/
theorem proverBlock_frame {α : Type} (block : Env p → Except Stop α) (state : RunState p) :
    (Action.proverBlock block state).2.mode = state.mode ∧
      (Action.proverBlock block state).2.checking = state.checking ∧
      (Action.proverBlock block state).2.recording = state.recording ∧
      (Action.proverBlock block state).2.table = state.table := by
  simp only [Action.proverBlock, Action.inMode]
  split_ifs
  · exact ⟨rfl, rfl, rfl, rfl⟩
  · split <;> exact ⟨rfl, rfl, rfl, rfl⟩
  · exact ⟨rfl, rfl, rfl, rfl⟩

namespace Live

theorem enter (state : RunState p) (mode : Mode) : (state.enter mode).Live mode := by
  refine ⟨rfl, VariableTable.empty_wellFormed, ?_⟩
  show (if mode.records then some (Recording.start state.settings) else none).isSome = mode.records
  cases mode.records <;> rfl

theorem hasWitness (h : state.Live mode) : state.mode.hasWitness = mode.hasWitness :=
  congrArg Mode.hasWitness h.mode_eq

theorem constrain [Fact p.Prime] (h : state.Live mode) (constraint : Constraint p)
    (label : Option String) : (Action.constrain constraint label state).2.Live mode := by
  obtain ⟨hMode, -, hRecording, hTable⟩ :=
    constrain_frame (rfl : (Action.constrain constraint label state).2 = _)
  refine ⟨hMode.trans h.mode_eq, ?_, hRecording.trans h.recording⟩
  rcases hTable with hSame | ⟨-, settings, hAbsorb⟩
  · rw [hSame]
    exact h.wellFormed
  · exact (VariableTable.absorb_absorbed h.wellFormed hAbsorb).wellFormed

theorem alloc (h : state.Live mode) (values : List (Option (Residue p))) :
    (state.allocAll .alloc values).2.Live mode :=
  ⟨h.mode_eq, (VariableTable.foldl_alloc_enlarges h.wellFormed values).wellFormed, h.recording⟩

theorem allocPublic (h : state.Live mode)
    (hPublic : state.table.size = state.table.publicCount)
    (values : List (Option (Residue p))) : (state.allocAll .allocPublic values).2.Live mode :=
  ⟨h.mode_eq, (VariableTable.foldl_allocPublic_enlarges h.wellFormed hPublic values).wellFormed,
    h.recording⟩

theorem invariant [Fact p.Prime] : RunState.Invariant (Live (p := p) mode) where
  alloc h _ := h.alloc _
  allocPublic h _ hPublic _ := h.allocPublic hPublic _
  constrain label h _ := h.constrain _ label

end Live

/-- The values of a state that checks what it adds stay in agreement with the classes: a constraint
becomes a condition on the classes only after the values have satisfied it. -/
structure Careful (mode : Mode) (state : RunState p) : Prop extends state.Live mode where
  hasWitness : mode.hasWitness = true
  checks : Action.checks state = true
  grounded : state.Grounded

namespace Careful

theorem read_eq (h : state.Careful mode) :
    state.read = fun e => e.eval state.table.value :=
  read_eq_eval (h.toLive.hasWitness.trans h.hasWitness)

theorem constrain [Fact p.Prime] (h : state.Careful mode) (constraint : Constraint p)
    (label : Option String) : (Action.constrain constraint label state).2.Careful mode := by
  have hLive := h.toLive.constrain constraint label
  obtain ⟨hMode, hChecking, -, hTable⟩ :=
    constrain_frame (rfl : (Action.constrain constraint label state).2 = _)
  refine ⟨hLive, h.hasWitness, ?_, fun w hw => ?_⟩
  · rw [← h.checks, Action.checks, Action.checks, hMode, hChecking]
  rcases hTable with hSame | ⟨hCheck, settings, hAbsorb⟩
  · rw [hSame] at hw ⊢
    exact h.grounded w hw
  -- only equations are absorbed, and the check of an equation reads all of its variables
  have hNext := VariableTable.absorb_absorbed h.wellFormed hAbsorb
  have hOld := (VariableTable.valuesIn_of_eq hNext.values).valuedBy hw
  refine (hNext.consistent_iff w).mpr ⟨h.grounded w hOld, ?_⟩
  have hPassed := hCheck h.checks
  rw [h.read_eq] at hPassed
  have hKnown := Constraint.exists_read_of_check hPassed
    (Constraint.isChecked_of_isAlgebraic (VariableTable.isAlgebraic_of_absorbed hAbsorb))
  exact (Constraint.check_iff_holds constraint label fun x hx =>
    VariableTable.Known.value_eq (hKnown x hx) hOld).mp hPassed

theorem enlarge (h : state.Careful mode) (hLive : next.Live mode)
    (hChecks : Action.checks next = Action.checks state)
    (hTable : state.table.Enlarges next.table) : next.Careful mode :=
  ⟨hLive, h.hasWitness, hChecks.trans h.checks, fun w hw =>
    (hTable.consistent_iff w).mpr (h.grounded w (hTable.valuesIn.valuedBy hw))⟩

theorem invariant [Fact p.Prime] : RunState.Invariant (Careful (p := p) mode) where
  alloc h _ := h.enlarge (h.toLive.alloc _) rfl
    (VariableTable.foldl_alloc_enlarges h.wellFormed _)
  allocPublic h _ hPublic _ := h.enlarge (h.toLive.allocPublic hPublic _) rfl
    (VariableTable.foldl_allocPublic_enlarges h.wellFormed hPublic _)
  constrain label h _ := h.constrain _ label

end Careful

/-- One call of a run, whether it succeeds or not. Settings may change at any time, and a mode that
is entered meanwhile puts the frame back when it ends. -/
inductive Next (state : RunState p) : RunState p → Prop where
  | step (step : RunStep p) : Next state (step.perform state)
  | block {α : Type} (block : Env p → Except Stop α) : Next state (Action.proverBlock block state).2
  | settings (settings : Settings) : Next state (Action.setSettings settings state).2
  | checking (checking : Bool) : Next state (Action.setChecking checking state).2
  | within {α : Type} (mode : Mode) (body : Action p α) :
      Next state (Action.within mode body state).2

/-- A run of calls and the states that it visits. -/
inductive Runs (start : RunState p) : List (RunState p) → RunState p → Prop where
  | refl : Runs start [start] start
  | next {visited : List (RunState p)} {state next : RunState p} (prior : Runs start visited state)
      (hNext : state.Next next) : Runs start (next :: visited) next

/-- A call that is no operation of the circuit keeps the table and the recording. -/
theorem Next.cases (h : state.Next next) :
    (∃ step : RunStep p, next = step.perform state) ∨
      next.mode = state.mode ∧ next.table = state.table ∧
        next.recording = state.recording := by
  cases h with
  | step step => exact .inl ⟨step, rfl⟩
  | block block =>
      obtain ⟨hMode, -, hRecording, hTable⟩ := proverBlock_frame block state
      exact .inr ⟨hMode, hTable, hRecording⟩
  | settings settings => exact .inr ⟨rfl, rfl, rfl⟩
  | checking checking => exact .inr ⟨rfl, rfl, rfl⟩
  | within mode body =>
      rw [Action.within_eq]
      exact .inr ⟨rfl, rfl, rfl⟩

theorem Next.live [Fact p.Prime] (hNext : state.Next next) (h : state.Live mode) :
    next.Live mode := by
  rcases hNext.cases with ⟨step, rfl⟩ | ⟨hMode, hTable, hRecording⟩
  · exact RunStep.perform_keeps Live.invariant h fun c label _ => h.constrain c label
  · exact ⟨hMode.trans h.mode_eq, hTable ▸ h.wellFormed, hRecording ▸ h.recording⟩

theorem Next.careful [Fact p.Prime] (hNext : state.Next next) (h : state.Careful mode)
    (hChecks : Action.checks next = true) : next.Careful mode := by
  have hLive := hNext.live h.toLive
  rcases hNext.cases with ⟨step, rfl⟩ | ⟨-, hTable, -⟩
  · exact RunStep.perform_keeps Careful.invariant h fun c label _ => h.constrain c label
  · refine ⟨hLive, h.hasWitness, hChecks, ?_⟩
    rw [Grounded, hTable]
    exact h.grounded

namespace Runs

variable {start : RunState p} {visited : List (RunState p)}

theorem live [Fact p.Prime] (h : (start.enter mode).Runs visited state) : state.Live mode := by
  induction h with
  | refl => exact .enter start mode
  | next prior hNext ih => exact hNext.live ih

/-- A witness is computed with checks, and a prover checks as long as it is told to. -/
theorem careful [Fact p.Prime] (h : (start.enter mode).Runs visited state)
    (hMode : mode = .witnessGeneration ∨ mode = .prover ∧ ∀ s ∈ visited, s.checking = true) :
    state.Careful mode := by
  have hChecks {s : RunState p} (hs : s ∈ visited) (hLive : s.Live mode) :
      Action.checks s = true := by
    rcases hMode with rfl | ⟨rfl, hVisited⟩
    · rw [Action.checks, hLive.mode_eq]
    · rw [Action.checks, hLive.mode_eq]
      exact hVisited s hs
  induction h with
  | refl =>
      have hLive := Live.enter start mode
      refine ⟨hLive, ?_, hChecks (List.mem_singleton_self _) hLive, fun w _ x => ?_⟩
      · rcases hMode with rfl | ⟨rfl, -⟩ <;> rfl
      · rw [VariableTable.rep_of_le hLive.wellFormed (Nat.zero_le x), Rep.value_ofVar]
  | next prior hNext ih =>
      have hEarlier := hMode.imp_right fun h => And.intro h.1 (List.forall_mem_cons.mp h.2).2
      have hPrior := ih hEarlier fun hs => hChecks (List.mem_cons_of_mem _ hs)
      exact hNext.careful hPrior (hChecks List.mem_cons_self (hNext.live hPrior.toLive))

end Runs

end RunState

end ArithCircuit
