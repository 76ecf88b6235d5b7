import ArithCircuit.Proofs.Completeness
import ArithCircuit.Proofs.RunInvariant

/-! Runs of a prover that checks what it adds. What has been accepted holds for the values computed
so far, however they are continued, and its variables all have values. Each operation keeps this,
whether it succeeds or is refused half way, so at any time the circuit can be compiled and the
values satisfy it. -/
namespace ArithCircuit

namespace VariableTable

variable {p : Nat}

theorem value_eq_ok_iff {table : VariableTable p} {x : Nat} {y : Residue p} :
    table.value x = .ok y ↔ table.values[x]? = some (some y) := by
  rw [VariableTable.value]
  split <;> simp_all

/-- The variable has a value. -/
def Known (table : VariableTable p) (x : Nat) : Prop := ∃ y, table.value x = .ok y

/-- A total assignment that continues the values of the table. -/
def ValuedBy (table : VariableTable p) (w : Nat → Residue p) : Prop :=
  ∀ x y, table.value x = .ok y → w x = y

theorem Known.value_eq {table : VariableTable p} {x : Nat} (h : table.Known x)
    {w : Nat → Residue p} (hw : table.ValuedBy w) : table.value x = .ok (w x) := by
  obtain ⟨y, hy⟩ := h
  rw [hw x y hy, hy]

/-- Variables without a value are given zero. -/
theorem exists_valuedBy [Modulus p] (table : VariableTable p) :
    ∃ w : Nat → Residue p, table.ValuedBy w :=
  ⟨fun x => (table.value x).toOption.getD 0, fun x y hy => by simp only [hy]; rfl⟩

/-- The second table has the values of the first, and perhaps more. -/
def ValuesIn (table next : VariableTable p) : Prop :=
  ∀ x y, table.value x = .ok y → next.value x = .ok y

theorem Known.lt_size {table : VariableTable p} {x : Nat} (h : table.Known x) : x < table.size := by
  obtain ⟨y, hy⟩ := h
  exact (Array.getElem?_eq_some_iff.mp (value_eq_ok_iff.mp hy)).1

theorem ValuesIn.known {table next : VariableTable p} (h : table.ValuesIn next) {x : Nat}
    (hx : table.Known x) : next.Known x := by
  obtain ⟨y, hy⟩ := hx
  exact ⟨y, h x y hy⟩

theorem ValuesIn.valuedBy {table next : VariableTable p} (h : table.ValuesIn next)
    {w : Nat → Residue p} (hw : next.ValuedBy w) : table.ValuedBy w :=
  fun x y hy => hw x y (h x y hy)

theorem valuesIn_of_push {table next : VariableTable p} {value : Option (Residue p)}
    (hNext : next.values = table.values.push value) : table.ValuesIn next := by
  intro x y hy
  rw [value_eq_ok_iff] at hy ⊢
  have hLess : x < table.values.size := (Array.getElem?_eq_some_iff.mp hy).1
  rw [hNext, Array.getElem?_push_lt hLess, ← Array.getElem?_eq_getElem hLess, hy]

theorem valuesIn_of_eq {table next : VariableTable p} (hNext : next.values = table.values) :
    table.ValuesIn next := by
  intro x y hy
  rwa [VariableTable.value, hNext, ← VariableTable.value]

end VariableTable

/-- What a recording has accepted holds for the values in the table, however they are continued, and
none of its variables lacks a value. -/
structure Recording.Satisfied {p : Nat} [Modulus p] (recording : Recording p)
    (table : VariableTable p) (accepted : List (Assertion p)) : Prop where
  records : recording.HasAccepted table accepted
  known : ∀ a ∈ accepted, ∀ x ∈ a.constraint.vars, table.Known x
  holds : ∀ w, table.ValuedBy w → ∀ a ∈ accepted, a.constraint.Holds w
  publics : ∀ x < table.publicCount, table.Known x

namespace Recording.Satisfied

variable {p : Nat} [Modulus p] {recording : Recording p} {table next : VariableTable p}
  {accepted : List (Assertion p)}

theorem start (settings : Settings) :
    (Recording.start settings : Recording p).Satisfied .empty [] where
  records := .start ⟨VariableTable.empty_wellFormed, fun x hx => absurd hx (Nat.not_lt_zero x)⟩
  known := by simp
  holds := by simp
  publics := fun x hx => absurd hx (Nat.not_lt_zero x)

/-- New variables change nothing, if the public ones among them have values. -/
theorem grow (h : recording.Satisfied table accepted) (hGrows : table.Grows next)
    (hNext : next.WellFormed) (hValues : table.ValuesIn next)
    (hPublics : ∀ x < next.publicCount, next.Known x) : recording.Satisfied next accepted where
  records := h.records.grow hGrows hNext
  known a ha x hx := hValues.known (h.known a ha x hx)
  holds w hw := h.holds w (hValues.valuedBy hw)
  publics := hPublics

theorem allocAll [Fact p.Prime] (h : recording.Satisfied table accepted)
    (values : List (Option (Residue p))) :
    recording.Satisfied (values.foldl .alloc table) accepted := by
  induction values generalizing table with
  | nil => exact h
  | cons value rest ih =>
      have hValues : table.ValuesIn (table.alloc value) := VariableTable.valuesIn_of_push rfl
      refine ih (h.grow (VariableTable.alloc_grows table value)
        (VariableTable.alloc_wellFormed h.records.recorded.wellFormed value) hValues ?_)
      exact fun x hx => hValues.known (h.publics x hx)

theorem allocAllPublic [Fact p.Prime] (h : recording.Satisfied table accepted)
    (hPublic : table.size = table.publicCount) (given : List (Residue p)) :
    recording.Satisfied ((given.map some).foldl .allocPublic table) accepted := by
  induction given generalizing table with
  | nil => exact h
  | cons y rest ih =>
      have hValues : table.ValuesIn (table.allocPublic (some y)) :=
        VariableTable.valuesIn_of_push rfl
      have hGrows := VariableTable.allocPublic_grows table (some y)
      refine ih (h.grow hGrows (VariableTable.allocPublic_wellFormed
        h.records.recorded.wellFormed hPublic (some y)) hValues fun x hx => ?_) ?_
      · rcases Nat.lt_succ_iff_lt_or_eq.mp hx with hOld | rfl
        · exact hValues.known (h.publics x hOld)
        · refine ⟨y, ?_⟩
          rw [← hPublic, VariableTable.value_eq_ok_iff]
          exact Array.getElem?_push_size
      · rw [hGrows.size, hPublic]
        rfl

/-- An assertion that fits its kind and passes its check is recorded. Rows without an equation pass
in any case, so their variables must have values besides. -/
theorem add [Fact p.Prime] (h : recording.Satisfied table accepted) (assertion : Assertion p)
    (hArity : assertion.constraint.checkArity = .ok ())
    (hCheck : assertion.constraint.check assertion.label (fun e => e.eval table.value) = .ok ())
    (hKnown : ∀ x ∈ assertion.constraint.vars, table.Known x) :
    ∃ recording' table', recording.add table assertion = (.ok (), recording', table') ∧
      recording'.Satisfied table' (accepted ++ [assertion]) := by
  have hHolds : ∀ w, table.ValuedBy w → ∀ a ∈ accepted ++ [assertion], a.constraint.Holds w := by
    intro w hw a ha
    rcases List.mem_append.mp ha with ha | ha
    · exact h.holds w hw a ha
    · obtain rfl := List.mem_singleton.mp ha
      exact (Constraint.check_iff_holds a.constraint a.label
        fun x hx => (hKnown x hx).value_eq hw).mp hCheck
  rcases h.records.add fun x hx => (hKnown x hx).lt_size with
    ⟨recording', table', hAdd, -, -, hRecords, hValues, hPublic⟩ |
    ⟨stop, recording', -, -, -, hDue⟩
  · have hSame := VariableTable.valuesIn_of_eq hValues
    refine ⟨recording', table', hAdd, hRecords, fun a ha x hx => hSame.known ?_,
      fun w hw => hHolds w (hSame.valuedBy hw), fun x hx => hSame.known ?_⟩
    · rcases List.mem_append.mp ha with ha | ha
      · exact h.known a ha x hx
      · obtain rfl := List.mem_singleton.mp ha
        exact hKnown x hx
    · exact h.publics x (hPublic ▸ hx)
  · -- a refusal is due only if nothing satisfies all of them, but the values continue to a solution
    obtain ⟨w, hw⟩ := table.exists_valuedBy
    exact absurd (hHolds w hw) (hDue.not_holds hArity w)

/-- The values in the table satisfy the circuit, which can be made unless it has too many wires. -/
theorem finalize [Fact p.Prime] (h : recording.Satisfied table accepted) :
    (∃ circuit final rows inputs, recording.finalize table = (.ok circuit, final) ∧
      circuit.assign ⟨table.values, table.publicCount⟩ = .ok rows ∧
      Witness.publicValues ⟨table.values, table.publicCount⟩ = .ok inputs ∧
      circuit.verify rows inputs = .ok ()) ∨
    ∃ fault final, recording.finalize table = (.error (.fault fault), final) ∧
      fault.Overflows (recording.wireCount table) := by
  obtain ⟨w, hw⟩ := table.exists_valuedBy
  rcases h.records.finalize_satisfied table.Known h.known (h.holds w hw) with
    ⟨circuit, final, hResult, hRows⟩ | hOverflow
  · have hGet (x : Nat) (hx : table.Known x) :
        Witness.get ⟨table.values, table.publicCount⟩ x = .ok (w x) := hx.value_eq hw
    obtain ⟨rows, hAssign, hVerify⟩ := hRows ⟨table.values, table.publicCount⟩
      (fun x _ hx => hGet x hx) fun x hx => hGet x (h.publics x hx)
    refine .inl ⟨circuit, final, rows, _, hResult, hAssign, ?_, hVerify⟩
    exact Witness.publicValues_eq fun x hx => hGet x (h.publics x hx)
  · exact .inr hOverflow

end Recording.Satisfied

/-- Whether the operands of a row of another kind than generic can be read. Checking such a row does
not read them. -/
def RunState.gives {p : Nat} [Modulus p] (state : RunState p) : Constraint p → Bool
  | .raw kind operands _ => kind = .generic || operands.all fun e => (state.read e).isOk
  | _ => true

theorem RunState.gives_of_isChecked {p : Nat} [Modulus p] (state : RunState p)
    {constraint : Constraint p} (h : constraint.isChecked = true) :
    state.gives constraint = true := by
  cases constraint with
  | raw kind operands coeffs => simp_all [gives, Constraint.isChecked]
  | _ => rfl

/-- A prover that checks what it adds, and has accepted only what holds for its values. -/
structure RunState.Checked {p : Nat} [Modulus p] (state : RunState p) : Prop where
  mode : state.mode = .prover
  checking : state.checking = true
  recorded : ∃ recording accepted, state.recording = some recording ∧
    recording.Satisfied state.table accepted

namespace RunState.Checked

variable {p : Nat} [Modulus p] {state : RunState p}

theorem enter (hChecking : state.checking = true) : (state.enter .prover).Checked :=
  ⟨rfl, hChecking, .start state.settings, [], rfl, .start state.settings⟩

theorem hasWitness (h : state.Checked) : state.mode.hasWitness = true := by
  rw [h.mode]
  rfl

theorem read_eq (h : state.Checked) : state.read = fun e => e.eval state.table.value :=
  read_eq_eval h.hasWitness

theorem allocAll (h : state.Checked)
    {alloc : VariableTable p → Option (Residue p) → VariableTable p}
    {values : List (Option (Residue p))}
    (hAlloc : ∀ (recording : Recording p) accepted,
      recording.Satisfied state.table accepted →
        recording.Satisfied (values.foldl alloc state.table) accepted) :
    (state.allocAll alloc values).2.Checked := by
  obtain ⟨hMode, hChecking, recording, accepted, hRecording, hSatisfied⟩ := h
  exact ⟨hMode, hChecking, recording, accepted, hRecording, hAlloc recording accepted hSatisfied⟩

theorem known_of_isOk (h : state.Checked) {e : Expr p} (hRead : (state.read e).isOk = true) :
    ∀ x ∈ e.vars, state.table.Known x := by
  simp only [h.read_eq] at hRead
  intro x hx
  cases hEval : e.eval state.table.value with
  | error fault =>
      rw [hEval] at hRead
      cases hRead
  | ok y => exact Expr.exists_read_of_eval hEval hx

/-- The variables of a constraint whose check passes have values. -/
theorem known_of_check (h : state.Checked) {constraint : Constraint p} {label : Option String}
    (hGives : state.gives constraint = true)
    (hCheck : constraint.check label state.read = .ok ()) :
    ∀ x ∈ constraint.vars, state.table.Known x := by
  rw [h.read_eq] at hCheck
  cases hChecked : constraint.isChecked with
  | true => exact Constraint.exists_read_of_check hCheck hChecked
  | false =>
      cases constraint with
      | raw kind operands coeffs =>
          intro x hx
          obtain ⟨e, he, hxe⟩ := List.mem_flatMap.mp hx
          have hRead : (state.read e).isOk = true := by
            simp_all [gives, Constraint.isChecked]
          exact h.known_of_isOk hRead x hxe
      | _ => cases hChecked

/-- Everything that can become of a constraint that is added: it is refused for its arity or by its
check, and otherwise recorded. -/
theorem constrain_cases [Fact p.Prime] (h : state.Checked) (constraint : Constraint p)
    (label : Option String) (hGives : state.gives constraint = true) :
    (∃ next, Action.constrain constraint label state = (.ok (), next) ∧ next.Checked) ∨
    ∃ fault, Action.constrain constraint label state = (.error (.fault fault), state) ∧
      (constraint.checkArity = .error fault ∨
        constraint.check label state.read = .error fault) := by
  rcases Action.constrain_cases state constraint label with
    ⟨fault, hRefused, hCause⟩ | ⟨-, hArity, hCheck, hRecord⟩
  · refine .inr ⟨fault, hRefused, ?_⟩
    rcases hCause with hIdle | hFault | ⟨-, hFault⟩
    · rw [h.mode] at hIdle
      cases hIdle
    · exact .inl hFault
    · exact .inr hFault
  · have hChecks : Action.checks state = true := by
      rw [Action.checks, h.mode]
      exact h.checking
    have hPassed := hCheck hChecks
    have hKnown := h.known_of_check hGives hPassed
    rw [h.read_eq] at hPassed
    rw [hRecord]
    obtain ⟨hProver, hOn, recording, accepted, hRecording, hSatisfied⟩ := h
    obtain ⟨recording', table', hAdd, hNext⟩ :=
      hSatisfied.add ⟨label, constraint⟩ hArity hPassed hKnown
    rw [Action.record_of_some hRecording, hAdd]
    exact .inl ⟨_, rfl, hProver, hOn, recording', _, rfl, hNext⟩

theorem constrain [Fact p.Prime] (h : state.Checked) (constraint : Constraint p)
    (label : Option String) (hGives : state.gives constraint = true) :
    (Action.constrain constraint label state).2.Checked := by
  rcases h.constrain_cases constraint label hGives with ⟨next, hResult, hNext⟩ | ⟨fault, hResult, -⟩
  · rw [hResult]
    exact hNext
  · rw [hResult]
    exact h

end RunState.Checked

theorem RunState.Checked.invariant {p : Nat} [Modulus p] [Fact p.Prime] :
    RunState.Invariant (RunState.Checked (p := p)) where
  alloc h _ := h.allocAll fun _ _ hSatisfied => hSatisfied.allocAll _
  allocPublic h _ hPublic hGiven := by
    obtain ⟨given, rfl⟩ := hGiven h.hasWitness
    exact h.allocAll fun _ _ hSatisfied => hSatisfied.allocAllPublic hPublic given
  constrain label h hChecked := h.constrain _ label (RunState.gives_of_isChecked _ hChecked)

namespace RunStep

variable {p : Nat} [Modulus p]

/-- Whether the operands of an unchecked row can be read. -/
def isGiven (state : RunState p) : RunStep p → Bool
  | .constrain constraint _ => state.gives constraint
  | _ => true

/-- Whether the operands of unchecked rows can be read at the time they are added. -/
def areGiven (state : RunState p) : List (RunStep p) → Bool
  | [] => true
  | step :: rest => step.isGiven state && areGiven (step.perform state) rest

variable [Fact p.Prime] {state : RunState p}

/-- Every operation keeps what the prover accepted satisfied. -/
theorem perform_checked (h : state.Checked) (step : RunStep p)
    (hGiven : step.isGiven state = true) : (step.perform state).Checked := by
  apply perform_keeps RunState.Checked.invariant h
  rintro constraint label rfl
  exact h.constrain constraint label hGiven

theorem performAll_checked (h : state.Checked) (steps : List (RunStep p))
    (hGiven : areGiven state steps = true) : (performAll state steps).Checked := by
  induction steps generalizing state with
  | nil => exact h
  | cons step rest ih =>
      obtain ⟨hFirst, hRest⟩ := (Bool.and_eq_true _ _).mp hGiven
      exact ih (perform_checked h step hFirst) hRest

end RunStep

namespace RunState

variable {p : Nat} [Modulus p]

/-- The number of wires needed to compile what has been recorded. -/
def wireCount (state : RunState p) : Nat :=
  (state.recording.map fun recording => recording.wireCount state.table).getD 0

/-- A prover that checks constraints as they are added always has a satisfied circuit. After any
operations, refused ones included, a constraint that fits its kind and passes its check is recorded
without contradiction; and what has been recorded compiles, unless it has too many wires for 32
bits, to a circuit whose rows the values computed so far fill so that verification accepts them for
the public values. -/
theorem prover_satisfied [Fact p.Prime] (start : RunState p) (hChecking : start.checking = true)
    (steps : List (RunStep p)) (hGiven : RunStep.areGiven (start.enter .prover) steps = true) :
    let state := RunStep.performAll (start.enter .prover) steps
    (∀ constraint label, constraint.checkArity = .ok () →
      constraint.check label state.read = .ok () → state.gives constraint = true →
      (Action.constrain constraint label state).1 = .ok ()) ∧
    ((∃ circuit rows inputs, state.compile = .ok circuit ∧
        circuit.assign state.witness = .ok rows ∧ state.witness.publicValues = .ok inputs ∧
        circuit.verify rows inputs = .ok ()) ∨
      ∃ fault, state.compile = .error (.fault fault) ∧ fault.Overflows state.wireCount) := by
  intro state
  have hState : state.Checked := RunStep.performAll_checked (.enter hChecking) steps hGiven
  refine ⟨fun constraint label hArity hCheck hGives => ?_, ?_⟩
  · rcases hState.constrain_cases constraint label hGives with
      ⟨next, hResult, -⟩ | ⟨fault, -, hFault | hFault⟩
    · rw [hResult]
    · rw [hArity] at hFault
      cases hFault
    · rw [hCheck] at hFault
      cases hFault
  · obtain ⟨-, -, recording, accepted, hRecording, hSatisfied⟩ := hState
    rw [compile, wireCount, hRecording]
    rcases hSatisfied.finalize with
      ⟨circuit, final, rows, inputs, hResult, hRows⟩ | ⟨fault, final, hResult, hOverflow⟩
    · exact .inl ⟨circuit, rows, inputs, congrArg Prod.fst hResult, hRows⟩
    · exact .inr ⟨fault, congrArg Prod.fst hResult, hOverflow⟩

/-- A run in which three operations are refused: an inverse of zero, an equality that the values
contradict, and a quotient of a variable without a value, whose inverse stays behind. -/
theorem prover_satisfied_refusals :
    let steps : List (RunStep 7) :=
      [.declarePublic 1 (some [.ofNat 7 3]), .allocate,
        .compute fun env => (env.read (.add (.var 0) 1)).mapError .fault,
        .mul (.var 0) (.var 2) none, .inv (.add (.var 2) (.const (.ofNat 7 3))) none,
        .constrain (.equal (.var 0) (.var 3)) none, .div (.var 1) (.var 0) none,
        .equal (.var 0) (.var 2), .select (.var 5) (.var 4) (.var 3),
        .constrain (.equal (.var 2) (.add (.var 0) 1)) none,
        .constrain (.raw .xor16 [.add (.var 2) (.var 3)] []) none]
    let state := RunStep.performAll ((idle Preset.aggressive.settings).enter .prover) steps
    RunStep.areGiven ((idle Preset.aggressive.settings).enter .prover) steps = true ∧
      ∃ circuit rows inputs, state.compile = .ok circuit ∧
        circuit.assign state.witness = .ok rows ∧ state.witness.publicValues = .ok inputs ∧
        circuit.verify rows inputs = .ok () := by
  intro steps state
  have : Fact (Nat.Prime 7) := ⟨by decide⟩
  have hGiven : RunStep.areGiven ((idle Preset.aggressive.settings).enter .prover) steps = true :=
    by decide +kernel
  have hFits : state.wireCount < 2 ^ 32 := by decide +kernel
  rcases (prover_satisfied (idle Preset.aggressive.settings) rfl steps hGiven).2 with
    hSatisfied | ⟨fault, -, wires, hLarge, hLimit, -⟩
  · exact ⟨hGiven, hSatisfied⟩
  · exact absurd (hLarge.trans hLimit) (Nat.not_le_of_lt hFits)

end RunState

end ArithCircuit
