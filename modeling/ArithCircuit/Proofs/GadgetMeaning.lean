import ArithCircuit.Proofs.GadgetCompleteness

/-! Gadgets mean what they say. In a recording, the result of a gadget has its value under every
assignment that satisfies the constraints of the call. Conversely, where every constraint has been
checked, the values of a run agree with its classes, so gadgets over operands with values succeed;
only zero is not inverted. -/
namespace ArithCircuit

theorem Mode.ne_idle_of_hasWitness {mode : Mode} (h : mode.hasWitness = true) : mode ≠ .idle := by
  rintro rfl
  cases h

namespace Action

variable {p : Nat} [Modulus p] {state : RunState p}

/-- When the operation succeeds, its result has its meaning for all assignments that satisfy the
constraints added by the call; and these are what the recording says from then on, besides what it
said before. -/
def Means (state : RunState p) (action : Action p (Expr p))
    (meaning : (Nat → Residue p) → Residue p → Prop) : Prop :=
  ∀ r next, action state = (.ok r, next) → ∃ added, state.Adds added next ∧
    (∀ w, next.Admits w ↔ state.Admits w ∧ ∀ k ∈ added, k.Passes w) ∧
    ∀ w, (∀ k ∈ added, k.Passes w) → meaning w (r.value w)

/-- The operation succeeds. -/
def Succeeds (state : RunState p) (action : Action p (Expr p)) : Prop :=
  ∃ r next, action state = (.ok r, next)

/-- The operation succeeds, and its result can be read. -/
def Yields (state : RunState p) (action : Action p (Expr p)) (value : Residue p) : Prop :=
  ∃ r next, action state = (.ok r, next) ∧ next.read r = .ok value

/-- The operation is refused for a constraint that does not hold, and changes nothing. -/
def Unsatisfied (state : RunState p) (action : Action p (Expr p)) (label : String) : Prop :=
  ∃ statement values, action state =
    (.error (.fault (.unsatisfied (some label) statement values)), state)

theorem Ensures.means [Fact p.Prime] {action : Action p (Expr p)}
    {meaning : (Nat → Residue p) → Residue p → Prop} {mode : Mode}
    (h : action.Ensures fun w r => meaning w (r.value w)) (hState : state.Live mode)
    (hRecords : mode.records = true) : action.Means state meaning := by
  intro r next hResult
  obtain ⟨added, hAdds, hMeaning⟩ := h state r next hResult
  exact ⟨added, hAdds, (hAdds.admits hState hRecords).2, hMeaning⟩

theorem Returns.succeeds {action : Action p (Expr p)} {mode : Mode} {w : Nat → Residue p}
    {value : Residue p} (h : Returns mode state w action value) : action.Succeeds state := by
  obtain ⟨r, next, -, hResult, -⟩ := h
  exact ⟨r, next, hResult⟩

theorem Returns.yields {action : Action p (Expr p)} {mode : Mode} {w : Nat → Residue p}
    {value : Residue p} (h : Returns mode state w action value)
    (hWitness : mode.hasWitness = true) : action.Yields state value := by
  obtain ⟨r, next, w', hResult, hContinues, hCovers, hValue⟩ := h
  exact ⟨r, next, hResult, hValue ▸ hContinues.toModelledBy.read_eq hWitness hCovers⟩

omit [Modulus p] in
/-- A computation that is refused introduces no variable. -/
theorem compute_of_error {value : Env p → Except Stop (Residue p)} {stop : Stop}
    (hWitness : state.mode.hasWitness = true) (h : value state.env = .error stop) :
    Action.compute value state = (.error stop, state) := by
  apply Stateful.bind_of_error
  simp only [introduce, inMode, if_neg (Mode.ne_idle_of_hasWitness hWitness), if_pos hWitness, h]
  rfl

end Action

namespace Gadget

variable {p : Nat} [Modulus p] {state : RunState p} {mode : Mode}

open ArithCircuit.Action

/-- What gadgets record is what they stand for. -/
structure Sound (state : RunState p) : Prop where
  mul : ∀ a b label, (mul a b label).Means state fun w r => r = a.value w * b.value w
  square : ∀ a label, (square a label).Means state fun w r => r = a.value w * a.value w
  inv : ∀ a label, (inv a label).Means state fun w r => r * a.value w = 1 ∧ a.value w ≠ 0
  div : ∀ a b label, (div a b label).Means state fun w r =>
    r * b.value w = a.value w ∧ b.value w ≠ 0
  equal : ∀ a b, (equal a b).Means state fun w r => r = if a.value w = b.value w then 1 else 0
  select : ∀ condition yes no, (select condition yes no).Means state fun w r =>
    (condition.value w = 1 → r = yes.value w) ∧ (condition.value w = 0 → r = no.value w)

/-- Without values, gadgets over allocated variables succeed; an operand is inverted if what has
been recorded leaves a choice in which it is not zero. -/
structure Recordable (state : RunState p) : Prop where
  mul : ∀ a b label, state.Covers a → state.Covers b → (mul a b label).Succeeds state
  square : ∀ a label, state.Covers a → (square a label).Succeeds state
  inv : ∀ a label, state.Covers a → (∃ w, state.Admits w ∧ a.value w ≠ 0) →
    (inv a label).Succeeds state
  div : ∀ a b label, state.Covers a → state.Covers b → (∃ w, state.Admits w ∧ b.value w ≠ 0) →
    (div a b label).Succeeds state
  equal : ∀ a b, state.Covers a → state.Covers b → (equal a b).Succeeds state
  select : ∀ condition yes no, state.Covers condition → state.Covers yes → state.Covers no →
    (select condition yes no).Succeeds state

/-- Gadgets over operands with values compute what they stand for, and zero is not inverted. -/
structure Computes (state : RunState p) : Prop where
  mul : ∀ a b label x y, state.read a = .ok x → state.read b = .ok y →
    (mul a b label).Yields state (x * y)
  square : ∀ a label x, state.read a = .ok x → (square a label).Yields state (x * x)
  inv : ∀ a label x, state.read a = .ok x →
    (x ≠ 0 → (inv a label).Yields state x⁻¹) ∧
      (x = 0 → (inv a label).Unsatisfied state (label.getD "field_inv"))
  div : ∀ a b label x y, state.read a = .ok x → state.read b = .ok y →
    (y ≠ 0 → (div a b label).Yields state (x / y)) ∧
      (y = 0 → (div a b label).Unsatisfied state (label.getD "field_inv"))
  equal : ∀ a b x y, state.read a = .ok x → state.read b = .ok y →
    (equal a b).Yields state (if x = y then 1 else 0)
  select : ∀ condition yes no k x y, state.read condition = .ok k → state.read yes = .ok x →
    state.read no = .ok y → (select condition yes no).Yields state (k * (x - y) + y)

/-- Zero has no inverse, whether it is a literal or a value. -/
theorem inv_unsatisfied (hWitness : state.mode.hasWitness = true) {a : Expr p}
    (hRead : state.read a = .ok 0) (label : Option String) :
    (inv a label).Unsatisfied state (label.getD "field_inv") := by
  have hEval : a.eval state.table.value = .ok 0 := by
    rwa [RunState.read_eq_eval hWitness] at hRead
  rcases inv_cases a label state with ⟨x, rfl, hx, -⟩ | ⟨-, hRefused⟩ | hFresh
  · exact absurd (Except.ok.inj hEval) hx
  · exact ⟨_, _, hRefused⟩
  · have hPeek : peek state.env a = .ok 0 := congrArg (Except.mapError Stop.fault) hRead
    refine ⟨a.text ++ " * x = 1", [(0 : Residue p).signed], ?_⟩
    rw [hFresh]
    apply Stateful.bind_of_error
    apply compute_of_error hWitness
    rw [hPeek]
    simp only [bind, Except.bind, Residue.inv?, if_true]

section Prime

variable [Fact p.Prime]

theorem sound (h : state.Live mode) (hRecords : mode.records = true) : Sound state where
  mul a b label := (mul_ensures a b label).means h hRecords
  square a label := (square_ensures a label).means h hRecords
  inv a label := by
    refine Ensures.means ((inv_ensures a label).imp fun w r hInverse => ?_) h hRecords
    exact ⟨hInverse, right_ne_zero_of_mul_eq_one hInverse⟩
  div a b label := (div_ensures a b label).means h hRecords
  equal a b := (equal_ensures a b).means h hRecords
  select condition yes no := by
    refine Ensures.means ((select_ensures condition yes no).imp fun w r hSelected => ?_) h hRecords
    rw [hSelected]
    refine ⟨fun hOne => ?_, fun hZero => ?_⟩
    · rw [hOne, one_mul, sub_add_cancel]
    · rw [hZero, zero_mul, zero_add]

/-- Without values, any assignment that agrees with the classes will do. -/
theorem recordable (h : state.Live .constraintGeneration) : Recordable state := by
  have hModel {w : Nat → Residue p} (hw : state.table.Consistent w) :
      state.ModelledBy .constraintGeneration w := ⟨h, nofun, hw, nofun⟩
  have hAny := hModel (VariableTable.classValue_consistent h.wellFormed 0)
  constructor
  · intro a b label ha hb
    exact (mul_returns hAny ha hb label).succeeds
  · intro a label ha
    exact (square_returns hAny ha label).succeeds
  · rintro a label ha ⟨w, hw, hNonzero⟩
    exact (inv_returns (hModel hw.1) ha hNonzero label).succeeds
  · rintro a b label ha hb ⟨w, hw, hNonzero⟩
    exact (div_returns (hModel hw.1) ha hb hNonzero label).succeeds
  · intro a b ha hb
    exact (equal_returns hAny ha hb).succeeds
  · intro condition yes no hCondition hYes hNo
    exact (select_returns hAny hCondition hYes hNo).succeeds

/-- Where constraints are checked, the values continue to an assignment that agrees with the
classes. -/
theorem computes (h : state.Careful mode) : Computes state := by
  obtain ⟨w, hw⟩ := state.table.exists_valuedBy
  have hModel : state.ModelledBy mode w :=
    ⟨h.toLive, Mode.ne_idle_of_hasWitness h.hasWitness, h.grounded w hw, fun _ => hw⟩
  have hOperand {a : Expr p} {x : Residue p} (ha : state.read a = .ok x) :
      state.Covers a ∧ a.value w = x := hModel.covers_of_read h.hasWitness ha
  have hMode : state.mode.hasWitness = true := h.toLive.hasWitness.trans h.hasWitness
  constructor
  · intro a b label x y hx hy
    obtain ⟨ha, rfl⟩ := hOperand hx
    obtain ⟨hb, rfl⟩ := hOperand hy
    exact (mul_returns hModel ha hb label).yields h.hasWitness
  · intro a label x hx
    obtain ⟨ha, rfl⟩ := hOperand hx
    exact (square_returns hModel ha label).yields h.hasWitness
  · intro a label x hx
    refine ⟨fun hNonzero => ?_, fun hZero => inv_unsatisfied hMode (hZero ▸ hx) label⟩
    obtain ⟨ha, rfl⟩ := hOperand hx
    exact (inv_returns hModel ha hNonzero label).yields h.hasWitness
  · intro a b label x y hx hy
    refine ⟨fun hNonzero => ?_, fun hZero => ?_⟩
    · obtain ⟨ha, rfl⟩ := hOperand hx
      obtain ⟨hb, rfl⟩ := hOperand hy
      exact (div_returns hModel ha hb hNonzero label).yields h.hasWitness
    · obtain ⟨statement, values, hRefused⟩ := inv_unsatisfied hMode (hZero ▸ hy) label
      exact ⟨statement, values, Stateful.bind_of_error hRefused⟩
  · intro a b x y hx hy
    obtain ⟨ha, rfl⟩ := hOperand hx
    obtain ⟨hb, rfl⟩ := hOperand hy
    exact (equal_returns hModel ha hb).yields h.hasWitness
  · intro condition yes no k x y hk hx hy
    obtain ⟨hCondition, rfl⟩ := hOperand hk
    obtain ⟨hYes, rfl⟩ := hOperand hx
    obtain ⟨hNo, rfl⟩ := hOperand hy
    exact (select_returns hModel hCondition hYes hNo).yields h.hasWitness

end Prime

end Gadget

namespace RunState

/-- Gadgets mean what they say, at any time of a run and under any settings. While constraints are
recorded, every assignment that satisfies the constraints of a call gives its result the value that
the gadget stands for. Without values, a call over allocated variables succeeds, if an operand that
is inverted need not be zero. With values that have been checked throughout, a call over operands
with values computes what it stands for, and an inverse or a quotient is refused exactly for
zero. -/
theorem gadgets_mean {p : Nat} [Modulus p] [Fact p.Prime] {start state : RunState p} {mode : Mode}
    {visited : List (RunState p)} (hRuns : (start.enter mode).Runs visited state) :
    (mode.records = true → Gadget.Sound state) ∧
    (mode = .constraintGeneration → Gadget.Recordable state) ∧
    (mode = .witnessGeneration ∨ mode = .prover ∧ (∀ s ∈ visited, s.checking = true) →
      Gadget.Computes state) := by
  refine ⟨fun hRecords => Gadget.sound hRuns.live hRecords, ?_,
    fun hMode => Gadget.computes (hRuns.careful hMode)⟩
  rintro rfl
  exact Gadget.recordable hRuns.live

/-- A prover whose classes say that a variable is twice a public input, and which has changed the
settings in a mode of its own meanwhile. The quotient of the two is computed, a quotient by a
difference that is zero is refused, and their comparison is fixed by its constraints. -/
theorem gadgets_mean_quotient :
    let start : RunState 7 := idle Preset.aggressive.settings
    let first := RunStep.perform (start.enter .prover)
      (.declarePublic 2 (some [.ofNat 7 3, .ofNat 7 6]))
    let second := RunStep.perform first (.compute fun env => (env.read (.var 1)).mapError .fault)
    let third := RunStep.perform second
      (.constrain (.equal (.var 2) (.scale (.ofNat 7 2) (.var 0))) none)
    let state := (Action.within .constraintGeneration
      (Action.setSettings Preset.debug.settings) third).2
    (start.enter .prover).Runs [state, third, second, first, start.enter .prover] state ∧
      (Gadget.div (.var 2) (.var 0) none).Yields state (.ofNat 7 2) ∧
      (Gadget.div (.var 0) (.var 1 - .var 2) (some "ratio")).Unsatisfied state "ratio" ∧
      (Gadget.equal (.var 0) (.var 2)).Means state fun w r => r = if w 0 = w 2 then 1 else 0 := by
  intro start first second third state
  have : Fact (Nat.Prime 7) := ⟨by decide⟩
  have hRuns :
      (start.enter .prover).Runs [state, third, second, first, start.enter .prover] state :=
    .next (.next (.next (.next .refl (.step _)) (.step _)) (.step _)) (.within _ _)
  have hChecked : ∀ s ∈ [state, third, second, first, start.enter .prover], s.checking = true := by
    decide +kernel
  obtain ⟨hSound, -, hComputes⟩ := gadgets_mean hRuns
  have hDiv := (hComputes (.inr ⟨rfl, hChecked⟩)).div
  have hThree : state.read (.var 0) = .ok (.ofNat 7 3) := by decide +kernel
  have hSix : state.read (.var 2) = .ok (.ofNat 7 6) := by decide +kernel
  have hZero : state.read (.var 1 - .var 2) = .ok 0 := by decide +kernel
  refine ⟨hRuns, ?_, (hDiv _ _ (some "ratio") _ _ hThree hZero).2 rfl, (hSound rfl).equal _ _⟩
  exact (hDiv _ _ none _ _ hSix hThree).1 (by decide)

end RunState

end ArithCircuit
