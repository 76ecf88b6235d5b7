import ArithCircuit.Lowering.Emit
import ArithCircuit.Proofs.Constraint
import ArithCircuit.Proofs.Lowering.Draft

/-! Lowering of constraints. What is emitted for an equation holds exactly where the equation does,
and a constraint is refused only when it folds to a false statement about constants. Range checks
and rows of other kinds add no equation besides the definitions of their cells. -/
namespace ArithCircuit.Draft

variable {p : Nat} [Modulus p]

/-- What may come of lowering an assertion. Either it is emitted, and then what was added says
exactly that the first condition holds, or it is refused, and then the second one never holds. -/
inductive Lowers (live : Nat → Prop) (ensured needed : (Signal → Residue p) → Prop)
    (assertion : Assertion p) (before : Draft p) : Except Fault Unit × Draft p → Prop
  | emitted {after : Draft p} (hEmits : Emits live ensured before after) :
    Lowers live ensured needed assertion before (.ok (), after)
  | refused {after : Draft p} {partly : (Signal → Residue p) → Prop} {values : List (Residue p)}
    (hEmits : Emits live partly before after)
    (hNever : ∀ σ, after.Solves σ → ¬ needed σ) :
    Lowers live ensured needed assertion before
      (.error (assertion.constraint.refuted assertion.label values), after)

variable {live : Nat → Prop} {draft a b : Draft p} {assertion : Assertion p}
  {P P' Q Q' : (Signal → Residue p) → Prop} {result : Except Fault Unit × Draft p}
  {table : VariableTable p}

namespace Lowers

theorem after_emits {R : (Signal → Residue p) → Prop} (hab : Emits live R a b)
    (h : Lowers live P Q assertion b result) :
    Lowers live (fun σ => R σ ∧ P σ) Q assertion a result := by
  cases h with
  | emitted hEmits => exact .emitted (hab.trans hEmits)
  | refused hEmits hNever => exact .refused (hab.trans hEmits) hNever

theorem after_definitions (hab : Emits live (fun _ => True) a b)
    (h : Lowers live P Q assertion b result) : Lowers live P Q assertion a result := by
  cases h with
  | emitted hEmits => exact .emitted (hab.after_definitions hEmits)
  | refused hEmits hNever => exact .refused (hab.trans hEmits) hNever

/-- Conditions may be restated where the definitions known before hold. -/
theorem congr (h : Lowers live P Q assertion a result)
    (hP : ∀ σ, a.Solves σ → (P σ ↔ P' σ)) (hQ : ∀ σ, a.Solves σ → Q' σ → Q σ) :
    Lowers live P' Q' assertion a result := by
  cases h with
  | emitted hEmits => exact .emitted (hEmits.congr fun σ hσ => hP σ (hEmits.solves hσ))
  | refused hEmits hNever =>
      exact .refused hEmits fun σ hσ hNeeded => hNever σ hσ (hQ σ (hEmits.solves hσ) hNeeded)

end Lowers

/-- Moving scales and constants into the coefficients does not change what a half computes. -/
theorem residual_operandCoeffs (σ : Signal → Residue p) (k : HalfCoeffs p) (l r o : Operand p) :
    (operandCoeffs k l r o).residual (Signal.register σ l.signal) (Signal.register σ r.signal)
        (Signal.register σ o.signal) = k.residual (l.value σ) (r.value σ) (o.value σ) := by
  simp only [HalfCoeffs.residual, operandCoeffs, Operand.value]
  ring

theorem emitGeneric_lowers (h : draft.WellFormed live) (settings : Settings)
    (assertion : Assertion p) (k : HalfCoeffs p) {l r o : Operand p}
    (hl : ∀ signal, l.signal = some signal → signal.InScope live draft.aux.size)
    (hr : ∀ signal, r.signal = some signal → signal.InScope live draft.aux.size)
    (ho : ∀ signal, o.signal = some signal → signal.InScope live draft.aux.size) :
    Lowers live (fun σ => k.residual (l.value σ) (r.value σ) (o.value σ) = 0)
      (fun σ => k.residual (l.value σ) (r.value σ) (o.value σ) = 0) assertion draft
      (draft.emitGeneric settings assertion k l r o) := by
  rw [emitGeneric]
  split_ifs with hFold hZero
  · obtain ⟨-, hl, hr, ho⟩ := hFold
    refine .emitted ((Emits.refl h).congr fun σ _ => ?_)
    rw [← residual_operandCoeffs, hl, hr, ho]
    simp [HalfCoeffs.residual, Signal.register, hZero]
  · obtain ⟨-, hl, hr, ho⟩ := hFold
    refine .refused (Emits.refl h) fun σ _ => ?_
    rw [← residual_operandCoeffs, hl, hr, ho]
    simp [HalfCoeffs.residual, Signal.register, hZero]
  · have hProper : (Emission.half ⟨l.signal, r.signal, o.signal, operandCoeffs k l r o⟩).Proper
        live draft.aux.size := by
      intro signal hSignal
      simp only [Half.registers, List.mem_cons, List.not_mem_nil, or_false] at hSignal
      rcases hSignal with hLeft | hRight | hOut
      · exact hl signal hLeft.symm
      · exact hr signal hRight.symm
      · exact ho signal hOut.symm
    refine .emitted ((emit_emits h hProper).congr fun σ _ => ?_)
    rw [← residual_operandCoeffs]
    exact Iff.rfl

theorem sumZero_proper {count : Nat} {terms : List (Residue p × Signal)}
    (hScope : ∀ term ∈ terms, term.2.InScope live count) (constant : Residue p) :
    (Emission.half (Half.sumZero terms constant)).Proper live count := by
  intro signal hSignal
  simp only [Half.registers, Half.sumZero, List.mem_cons, List.not_mem_nil, or_false] at hSignal
  rcases hSignal with hLeft | hRight | hOut
  · exact signalAt_inScope hScope hLeft.symm
  · exact signalAt_inScope hScope hRight.symm
  · exact signalAt_inScope hScope hOut.symm

theorem emitEqual_lowers (h : draft.WellFormed live) (settings : Settings)
    (assertion : Assertion p) {x y : Expr p} (hLive : table.LiveReps live (x.vars ++ y.vars)) :
    Lowers live
      (fun σ => (Constraint.equal x y).Holds (table.classValue (σ ∘ .var)))
      (fun σ => (Constraint.equal x y).Holds (table.classValue (σ ∘ .var)))
      assertion draft (draft.emitEqual settings table assertion x y) := by
  have hVars : (x.linear - y.linear).terms.map Prod.snd ⊆ x.vars ++ y.vars := by
    simp [LinearForm.sub_vars]
  have hScope := signalTerms_inScope hVars hLive settings.normalizeOperands draft.aux.size
  have hValue (σ : Signal → Residue p) :
      (table.resolveAs (x.linear - y.linear) settings.normalizeOperands).value (σ ∘ .var) = 0 ↔
        (Constraint.equal x y).Holds (table.classValue (σ ∘ .var)) := by
    rw [VariableTable.value_resolveAs, LinearForm.value_sub, Expr.value_linear, Expr.value_linear,
      sub_eq_zero]
    exact Iff.rfl
  rw [emitEqual]
  generalize table.resolveAs (x.linear - y.linear) settings.normalizeOperands = form
    at hScope hValue
  simp only [LinearForm.value_eq] at hValue
  simp only
  split_ifs with hFalse hTrue
  · refine .refused (Emits.refl h) fun σ _ => ?_
    rw [← hValue σ, hFalse.1, LinearForm.sumAt_nil, zero_add]
    exact hFalse.2
  · have hZero : form.constant = 0 := by
      by_contra hNonzero
      exact hFalse ⟨hTrue.1, hNonzero⟩
    refine .emitted ((Emits.refl h).congr fun σ _ => ?_)
    rw [← hValue σ, hTrue.1, hZero]
    simp
  · obtain ⟨fewer, next, hReduce, hNext, hLength, -, hTerms, hSum⟩ :=
      reduce_emits (by decide : 1 ≤ 3) h _ hScope
    rw [hReduce]
    refine .emitted (hNext.after_definitions
      ((emit_emits hNext.wellFormed (sumZero_proper hTerms _)).congr fun σ hσ => ?_))
    rw [← hValue σ, ← sumAt_signalTerms, ← hSum σ hσ]
    exact Half.sumZero_holds_iff σ hLength _

/-- What one half of a row that is given directly states about the operands from a position on. -/
def RawHalfHolds (w : Nat → Residue p) (operands : List (Expr p)) (k : HalfCoeffs p)
    (start : Nat) : Prop :=
  k.residual (Constraint.registerValue w operands start)
    (Constraint.registerValue w operands (start + 1))
    (Constraint.registerValue w operands (start + 2)) = 0

theorem emitRawHalf_lowers (h : draft.WellFormed live) (settings : Settings)
    (assertion : Assertion p) {operands : List (Expr p)}
    (hLive : table.LiveReps live (operands.flatMap Expr.vars)) (k : HalfCoeffs p) (start : Nat) :
    Lowers live (fun σ => RawHalfHolds (table.classValue (σ ∘ .var)) operands k start)
      (fun σ => RawHalfHolds (table.classValue (σ ∘ .var)) operands k start) assertion draft
      (draft.emitRawHalf settings table assertion operands k start) := by
  have hOperand (i : Nat) : ∀ e ∈ operands[i]?, table.LiveReps live e.vars := fun e he =>
    hLive.subset fun x hx => List.mem_flatMap.mpr ⟨e, List.mem_of_getElem? he, hx⟩
  have hRegister (w : Nat → Residue p) (i : Nat) :
      (operands[i]?.map (Expr.value w)).getD 0 = Constraint.registerValue w operands i := by
    simp [Constraint.registerValue]
  rw [emitRawHalf]
  split_ifs with hZero
  · refine .emitted ((Emits.refl h).congr fun σ _ => ?_)
    simp [RawHalfHolds, hZero, HalfCoeffs.zero, HalfCoeffs.residual]
  · obtain ⟨l, first, hl, hFirst, hlIn, hlValue⟩ := operand?_emits h settings (hOperand start)
    obtain ⟨r, second, hr, hSecond, hrIn, hrValue⟩ :=
      operand?_emits hFirst.wellFormed settings (hOperand (start + 1))
    obtain ⟨o, third, ho, hThird, hoIn, hoValue⟩ :=
      operand?_emits hSecond.wellFormed settings (hOperand (start + 2))
    simp only [hl, hr, ho]
    have hHalf := emitGeneric_lowers hThird.wellFormed settings assertion k
      (fun s hs => ((hlIn s hs).mono hSecond.size_le).mono hThird.size_le)
      (fun s hs => (hrIn s hs).mono hThird.size_le) hoIn
    have hValues : ∀ σ, third.Solves σ →
        (k.residual (l.value σ) (r.value σ) (o.value σ) = 0 ↔
          RawHalfHolds (table.classValue (σ ∘ .var)) operands k start) := by
      intro σ hσ
      rw [hlValue σ (hSecond.solves (hThird.solves hσ)), hrValue σ (hThird.solves hσ),
        hoValue σ hσ, hRegister, hRegister, hRegister]
      exact Iff.rfl
    exact .after_definitions hFirst (.after_definitions hSecond (.after_definitions hThird
      (hHalf.congr hValues fun σ hσ => (hValues σ hσ).mpr)))

/-- What lowering an assertion has to achieve: an equation is stated by what is added, other
constraints add definitions only, and a constraint that may hold is not refused. -/
def LowersAssertion (live : Nat → Prop) (table : VariableTable p) (draft : Draft p)
    (assertion : Assertion p) (result : Except Fault Unit × Draft p) : Prop :=
  Lowers live
    (fun σ => assertion.constraint.isAlgebraic = true →
      assertion.constraint.Holds (table.classValue (σ ∘ .var)))
    (fun σ => assertion.constraint.Holds (table.classValue (σ ∘ .var))) assertion draft result

theorem Lowers.algebraic (hAlgebraic : assertion.constraint.isAlgebraic = true)
    (h : Lowers live (fun σ => assertion.constraint.Holds (table.classValue (σ ∘ .var)))
      (fun σ => assertion.constraint.Holds (table.classValue (σ ∘ .var))) assertion draft result) :
    LowersAssertion live table draft assertion result :=
  h.congr (fun _ _ => ⟨fun hHolds _ => hHolds, fun hImp => hImp hAlgebraic⟩) fun _ _ => id

/-- A generic row that is given directly is lowered half by half. -/
theorem lower_generic (h : draft.WellFormed live) (settings : Settings) (label : Option String)
    {operands : List (Expr p)} (coeffs : List (Residue p))
    (hLive : table.LiveReps live (operands.flatMap Expr.vars)) :
    LowersAssertion live table draft ⟨label, .raw .generic operands coeffs⟩
      (draft.lower settings table ⟨label, .raw .generic operands coeffs⟩) := by
  refine Lowers.algebraic rfl ?_
  have hFirst := emitRawHalf_lowers h settings ⟨label, .raw .generic operands coeffs⟩ hLive
    (.ofListAt coeffs 0) 0
  simp only [lower]
  generalize draft.emitRawHalf settings table ⟨label, .raw .generic operands coeffs⟩ operands
    (.ofListAt coeffs 0) 0 = result at hFirst
  cases hFirst with
  | refused hEmits hNever => exact .refused hEmits fun σ hσ hAll => hNever σ hσ hAll.1
  | emitted hEmits =>
      have hSecond := emitRawHalf_lowers hEmits.wellFormed settings
        ⟨label, .raw .generic operands coeffs⟩ hLive (.ofListAt coeffs 5) 3
      exact (hSecond.after_emits hEmits).congr (fun _ _ => Iff.rfl) fun _ _ => And.right

theorem lower_raw_other (draft : Draft p) (settings : Settings) (table : VariableTable p)
    (label : Option String) {kind : GateKind} (hKind : kind ≠ .generic) (operands : List (Expr p))
    (coeffs : List (Residue p)) :
    draft.lower settings table ⟨label, .raw kind operands coeffs⟩ =
      (.ok (), (materializeAll settings table draft operands).2.emit
        (.row kind (materializeAll settings table draft operands).1 coeffs)) := by
  cases kind with
  | generic => exact absurd rfl hKind
  | _ => rfl

/-- A row of another kind states nothing but the values of its cells. -/
theorem lower_other (h : draft.WellFormed live) (settings : Settings) (label : Option String)
    {kind : GateKind} (hKind : kind ≠ .generic) {operands : List (Expr p)}
    {coeffs : List (Residue p)}
    (hArity : kind.checkArity operands.length coeffs.length = .ok ())
    (hLive : table.LiveReps live (operands.flatMap Expr.vars)) :
    LowersAssertion live table draft ⟨label, .raw kind operands coeffs⟩
      (draft.lower settings table ⟨label, .raw kind operands coeffs⟩) := by
  obtain ⟨signals, next, hCells, hNext, hLength, hSignals, -⟩ :=
    materializeAll_emits h settings operands hLive
  have hProper : (Emission.row kind signals coeffs).Proper live next.aux.size :=
    ⟨hKind, by rw [hLength, hArity], hSignals⟩
  rw [lower_raw_other draft settings table label hKind, hCells]
  refine .emitted (hNext.after_definitions ((emit_emits hNext.wellFormed hProper).congr ?_))
  intro σ _
  simp [Emission.Holds, Constraint.isAlgebraic, hKind]

/-- A proper range check: a constant is decided, any other value gets a row. -/
theorem lower_range (h : draft.WellFormed live) (settings : Settings) (label : Option String)
    {x : Expr p} (bits : Nat) (variant : RangeVariant) (hLive : table.LiveReps live x.vars) :
    LowersAssertion live table draft ⟨label, .range x (bits + 1) variant⟩
      (draft.lower settings table ⟨label, .range x (bits + 1) variant⟩) := by
  obtain ⟨operand, first, hOperand, hFirst, hIn, hValue⟩ := operand_emits h settings hLive
  simp only [lower, hOperand]
  have hConstraint : (Constraint.range x (bits + 1) variant).isAlgebraic = false := rfl
  split_ifs with hFold hFits
  · refine .emitted (hFirst.congr fun σ _ => ?_)
    simp [hConstraint]
  · refine .refused hFirst fun σ hσ hHolds => hFits ?_
    rw [← Operand.value_of_none σ hFold.2, hValue σ hσ]
    exact hHolds
  · obtain ⟨signal, next, hMaterialize, hNext, hSignal, -⟩ :=
      materialize_emits hFirst.wellFormed hIn
    have hProper : (Emission.row variant.kind [signal] [Residue.ofNat p (bits + 1)]).Proper live
        next.aux.size :=
      ⟨by cases variant <;> decide, by cases variant <;> rfl, by simpa using hSignal⟩
    simp only [hMaterialize]
    refine .emitted (hFirst.after_definitions (hNext.after_definitions
      ((emit_emits hNext.wellFormed hProper).congr fun σ _ => ?_)))
    simp [Emission.Holds, hConstraint]

theorem residual_productCoeffs_iff {l r o : Residue p} :
    productCoeffs.residual l r o = 0 ↔ l * r = o := by
  simp only [productCoeffs, HalfCoeffs.residual]
  constructor <;> intro h <;> linear_combination h

theorem residual_booleanCoeffs_iff [Fact p.Prime] {x o : Residue p} :
    booleanCoeffs.residual x x o = 0 ↔ x = 0 ∨ x = 1 := by
  have hFactor : booleanCoeffs.residual x x o = x * (x - 1) := by
    simp only [booleanCoeffs, HalfCoeffs.residual]
    ring
  rw [hFactor, mul_eq_zero, sub_eq_zero]

/-- A half over the operands of three expressions states its equation about the expressions. -/
theorem lower_product (h : draft.WellFormed live) (settings : Settings) (label : Option String)
    {x y z : Expr p} (hLive : table.LiveReps live (Constraint.product x y z).vars) :
    LowersAssertion live table draft ⟨label, .product x y z⟩
      (draft.lower settings table ⟨label, .product x y z⟩) := by
  have hx : table.LiveReps live x.vars := hLive.subset (by simp [Constraint.vars])
  have hy : table.LiveReps live y.vars := hLive.subset (by simp [Constraint.vars])
  have hz : table.LiveReps live z.vars := hLive.subset (by simp [Constraint.vars])
  obtain ⟨l, first, hl, hFirst, hlIn, hlValue⟩ := operand_emits h settings hx
  obtain ⟨r, second, hr, hSecond, hrIn, hrValue⟩ := operand_emits hFirst.wellFormed settings hy
  obtain ⟨o, third, ho, hThird, hoIn, hoValue⟩ := operand_emits hSecond.wellFormed settings hz
  have hHalf := emitGeneric_lowers hThird.wellFormed settings ⟨label, .product x y z⟩ productCoeffs
    (fun s hs => ((hlIn s hs).mono hSecond.size_le).mono hThird.size_le)
    (fun s hs => (hrIn s hs).mono hThird.size_le) hoIn
  have hValues : ∀ σ, third.Solves σ → (productCoeffs.residual (l.value σ) (r.value σ) (o.value σ) =
      0 ↔ (Constraint.product x y z).Holds (table.classValue (σ ∘ .var))) := by
    intro σ hσ
    rw [residual_productCoeffs_iff, hlValue σ (hSecond.solves (hThird.solves hσ)),
      hrValue σ (hThird.solves hσ), hoValue σ hσ]
    exact Iff.rfl
  simp only [lower, hl, hr, ho]
  exact Lowers.algebraic rfl (.after_definitions hFirst (.after_definitions hSecond
    (.after_definitions hThird (hHalf.congr hValues fun σ hσ => (hValues σ hσ).mpr))))

theorem lower_square (h : draft.WellFormed live) (settings : Settings) (label : Option String)
    {x y : Expr p} (hLive : table.LiveReps live (Constraint.square x y).vars) :
    LowersAssertion live table draft ⟨label, .square x y⟩
      (draft.lower settings table ⟨label, .square x y⟩) := by
  have hx : table.LiveReps live x.vars := hLive.subset (by simp [Constraint.vars])
  have hy : table.LiveReps live y.vars := hLive.subset (by simp [Constraint.vars])
  obtain ⟨l, first, hl, hFirst, hlIn, hlValue⟩ := operand_emits h settings hx
  obtain ⟨o, second, ho, hSecond, hoIn, hoValue⟩ := operand_emits hFirst.wellFormed settings hy
  have hlLater := fun s hs => (hlIn s hs).mono hSecond.size_le
  have hHalf := emitGeneric_lowers hSecond.wellFormed settings ⟨label, .square x y⟩ productCoeffs
    hlLater hlLater hoIn
  have hValues : ∀ σ, second.Solves σ → (productCoeffs.residual (l.value σ) (l.value σ)
      (o.value σ) = 0 ↔ (Constraint.square x y).Holds (table.classValue (σ ∘ .var))) := by
    intro σ hσ
    rw [residual_productCoeffs_iff, hlValue σ (hSecond.solves hσ), hoValue σ hσ]
    exact Iff.rfl
  simp only [lower, hl, ho]
  exact Lowers.algebraic rfl (.after_definitions hFirst (.after_definitions hSecond
    (hHalf.congr hValues fun σ hσ => (hValues σ hσ).mpr)))

theorem lower_boolean [Fact p.Prime] (h : draft.WellFormed live) (settings : Settings)
    (label : Option String) {x : Expr p} (hLive : table.LiveReps live x.vars) :
    LowersAssertion live table draft ⟨label, .boolean x⟩
      (draft.lower settings table ⟨label, .boolean x⟩) := by
  obtain ⟨l, first, hl, hFirst, hlIn, hlValue⟩ := operand_emits h settings hLive
  have hHalf := emitGeneric_lowers hFirst.wellFormed settings ⟨label, .boolean x⟩ booleanCoeffs
    hlIn hlIn (o := .zero) (by simp [Operand.zero])
  have hValues : ∀ σ, first.Solves σ → (booleanCoeffs.residual (l.value σ) (l.value σ)
      (Operand.zero.value σ) = 0 ↔
        (Constraint.boolean x).Holds (table.classValue (σ ∘ .var))) := by
    intro σ hσ
    rw [residual_booleanCoeffs_iff, hlValue σ hσ]
    exact Iff.rfl
  simp only [lower, hl]
  exact Lowers.algebraic rfl (.after_definitions hFirst
    (hHalf.congr hValues fun σ hσ => (hValues σ hσ).mpr))

/-- A value of no bits is zero, so this range check is an equality. -/
theorem lower_range_zero (h : draft.WellFormed live) (settings : Settings) (label : Option String)
    {x : Expr p} (variant : RangeVariant) (hLive : table.LiveReps live x.vars) :
    LowersAssertion live table draft ⟨label, .range x 0 variant⟩
      (draft.lower settings table ⟨label, .range x 0 variant⟩) := by
  have hZeroVars : table.LiveReps live (x.vars ++ (0 : Expr p).vars) := hLive.subset (by
    simp [show (0 : Expr p).vars = [] from rfl])
  have hEqual := emitEqual_lowers h settings ⟨label, .range x 0 variant⟩ hZeroVars
  have hValues (w : Nat → Residue p) :
      (Constraint.equal x 0).Holds w ↔ (Constraint.range x 0 variant).Holds w := by
    simp only [Constraint.Holds, Expr.value_zero, Residue.fitsIn_zero_iff]
  simp only [lower]
  exact Lowers.algebraic rfl (hEqual.congr (fun σ _ => hValues _) fun σ _ => (hValues _).mpr)

/-- Lowering any assertion over live variables. -/
theorem lower_lowers [Fact p.Prime] (h : draft.WellFormed live) (settings : Settings)
    (assertion : Assertion p) (hArity : assertion.constraint.checkArity = .ok ())
    (hLive : table.LiveReps live assertion.constraint.vars) :
    LowersAssertion live table draft assertion (draft.lower settings table assertion) := by
  obtain ⟨label, constraint⟩ := assertion
  cases constraint with
  | equal x y => exact Lowers.algebraic rfl (emitEqual_lowers h settings _ hLive)
  | product x y z => exact lower_product h settings label hLive
  | square x y => exact lower_square h settings label hLive
  | boolean x => exact lower_boolean h settings label hLive
  | range x bits variant =>
      cases bits with
      | zero => exact lower_range_zero h settings label variant hLive
      | succ bits => exact lower_range h settings label bits variant hLive
  | raw kind operands coeffs =>
      by_cases hKind : kind = .generic
      · subst hKind
        exact lower_generic h settings label coeffs hLive
      · exact lower_other h settings label hKind hArity hLive

/-- Lowering all assertions: together the halves that are added state all equations, and a refusal
shows one assertion that never holds. -/
theorem lowerAll_cases [Fact p.Prime] (h : draft.WellFormed live) (settings : Settings)
    (assertions : List (Assertion p))
    (hArity : ∀ k ∈ assertions, k.constraint.checkArity = .ok ())
    (hLive : ∀ k ∈ assertions, table.LiveReps live k.constraint.vars) :
    (∃ next, lowerAll settings table draft assertions = (.ok (), next) ∧
      Emits live (fun σ => ∀ k ∈ assertions, k.constraint.isAlgebraic = true →
        k.constraint.Holds (table.classValue (σ ∘ .var))) draft next) ∨
    ∃ k ∈ assertions, ∃ values next, lowerAll settings table draft assertions =
        (.error (k.constraint.refuted k.label values), next) ∧ next.WellFormed live ∧
      ∀ σ, next.Solves σ → ¬ k.constraint.Holds (table.classValue (σ ∘ .var)) := by
  induction assertions generalizing draft with
  | nil => exact .inl ⟨draft, rfl, (Emits.refl h).congr fun σ _ => by simp⟩
  | cons k rest ih =>
      have hFirst := lower_lowers h settings k (hArity k List.mem_cons_self)
        (hLive k List.mem_cons_self)
      generalize hResult : draft.lower settings table k = result at hFirst
      cases hFirst with
      | refused hEmits hNever =>
          exact .inr ⟨k, List.mem_cons_self, _, _, by rw [lowerAll, hResult], hEmits.wellFormed,
            hNever⟩
      | emitted hEmits =>
          rcases ih hEmits.wellFormed (fun k hk => hArity k (List.mem_cons_of_mem _ hk))
            (fun k hk => hLive k (List.mem_cons_of_mem _ hk)) with
            ⟨next, hRest, hNext⟩ | ⟨k', hk', values, next, hRest, hNext⟩
          · refine .inl ⟨next, by rw [lowerAll, hResult]; exact hRest, ?_⟩
            exact (hEmits.trans hNext).congr fun σ _ => by rw [List.forall_mem_cons]
          · exact .inr ⟨k', List.mem_cons_of_mem _ hk', values, next,
              by rw [lowerAll, hResult]; exact hRest, hNext⟩

end ArithCircuit.Draft
