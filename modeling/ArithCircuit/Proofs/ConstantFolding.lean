import ArithCircuit.Proofs.Compile

/-! Folding of constants. Operators on constants give constants, and with constant folding every
constraint over constants is decided: at once, when it is offered to the classes, or at the latest
when it is lowered. Either way it adds nothing to the circuit. -/
namespace ArithCircuit

namespace Expr

variable {p : Nat} [Modulus p]

theorem const_add (x y : Residue p) : (const x + const y : Expr p) = const (x + y) := by
  show plus (const x) (const y) = const (x + y)
  unfold plus
  split_ifs with hx hy
  · rw [Expr.const.inj hx, zero_add]
  · rw [Expr.const.inj hy, add_zero]
  · rfl

theorem const_scaleBy (x k : Residue p) : (const x).scaleBy k = const (k * x) := by
  unfold scaleBy
  split_ifs with hZero hOne
  · rw [hZero, zero_mul]
  · rw [hOne, one_mul]
  · rw [mul_comm]

theorem const_sub (x y : Residue p) : (const x - const y : Expr p) = const (x - y) := rfl

theorem const_neg (x : Residue p) : (-const x : Expr p) = const (-x) := by
  show (const x).scaleBy (-1) = const (-x)
  rw [const_scaleBy, neg_one_mul]

theorem combination_const (terms : List (Residue p × Residue p)) :
    combination (terms.map fun term => (term.1, const term.2)) =
      const (terms.map fun term => term.1 * term.2).sum := by
  have hFold (start : Residue p) :
      (terms.map fun term => (term.1, const term.2)).foldl
        (fun sum term => sum + term.2.scaleBy term.1) (const start) =
      const (start + (terms.map fun term => term.1 * term.2).sum) := by
    induction terms generalizing start with
    | nil => simp
    | cons term rest ih =>
        rw [List.map_cons, List.foldl_cons, const_scaleBy, const_add, ih, List.map_cons,
          List.sum_cons, add_assoc]
  have hSum := hFold 0
  rwa [zero_add] at hSum

theorem sum_const (values : List (Residue p)) : sum (values.map const) = const values.sum := by
  have hTerms := combination_const (values.map fun x => ((1 : Residue p), x))
  simpa [sum, Function.comp_def] using hTerms

/-- An expression without variables is linear without terms. -/
theorem linear_of_closed {e : Expr p} (h : e.vars = []) (w : Nat → Residue p) :
    e.linear = .ofConstant (e.value w) := by
  have hTerms : e.linear.terms = [] := by
    have hVars := e.linear_vars
    rw [h] at hVars
    exact List.map_eq_nil_iff.mp hVars
  have hConstant : e.linear.constant = e.value w := by
    rw [← value_linear, LinearForm.value_eq, hTerms, LinearForm.sumAt_nil, zero_add]
  show (⟨e.linear.terms, e.linear.constant⟩ : LinearForm p) = _
  rw [hTerms, hConstant]
  rfl

end Expr

namespace VariableTable

variable {p : Nat} [Modulus p] (table : VariableTable p)

theorem resolveAs_ofConstant (x : Residue p) (normalize : Bool) :
    table.resolveAs (.ofConstant x) normalize = .ofConstant x := by
  cases normalize with
  | false => rfl
  | true => rfl

theorem difference_of_closed {a b : Expr p} (ha : a.vars = []) (hb : b.vars = [])
    (w : Nat → Residue p) : a.linear - b.linear = .ofConstant (a.value w - b.value w) := by
  rw [Expr.linear_of_closed ha w, Expr.linear_of_closed hb w]
  rfl

theorem unify_ofConstant (x : Residue p) (policy : Unification) (label : Option String) :
    table.unify (.ofConstant x) policy label = .ok none ∨
      (x = 0 ∧ table.unify (.ofConstant x) policy label = .ok (some table)) ∨
      (x ≠ 0 ∧ ∃ stop, table.unify (.ofConstant x) policy label = .error stop) := by
  have hUnify : table.unify (.ofConstant x) policy label =
      if policy = .off then .ok none
      else if x = 0 then .ok (some table)
      else .error (.fault (.unsatisfied label (x.signed ++ " = 0") [])) := rfl
  rw [hUnify]
  split_ifs with hOff hZero
  · exact .inl rfl
  · exact .inr (.inl ⟨hZero, rfl⟩)
  · exact .inr (.inr ⟨hZero, _, rfl⟩)

end VariableTable

namespace Constraint

variable {p : Nat}

/-- A constraint that constants satisfy or not: it has an equation or a range, which fits its kind,
and no variables. -/
structure Closed (c : Constraint p) : Prop where
  vars : c.vars = []
  checked : c.isChecked = true
  arity : c.checkArity = .ok ()

theorem Closed.offered [Modulus p] {c : Constraint p} (h : c.Closed) (table : VariableTable p)
    (settings : Settings) : (table.offered settings c).Closed := by
  refine ⟨?_, ?_, VariableTable.offered_arity table settings h.arity⟩
  · have hSubset := VariableTable.offered_vars_subset table settings c
    rw [h.vars] at hSubset
    exact List.eq_nil_of_subset_nil hSubset
  · rcases VariableTable.offered_cases table settings c with hSame | ⟨-, a, b, hEqual⟩
    · rw [hSame, h.checked]
    · rw [hEqual]
      rfl

end Constraint

/-- Everything that can become of a constraint over constants when it is offered to the classes:
they stay as they are. -/
theorem VariableTable.absorb_closed {p : Nat} [Modulus p] {table : VariableTable p}
    {assertion : Assertion p} (hClosed : assertion.constraint.Closed) {w : Nat → Residue p}
    (hw : table.Consistent w) (settings : Settings) :
    (table.absorb settings assertion = .ok (.absorbed table) ∧ assertion.constraint.Holds w) ∨
    ((∃ stop, table.absorb settings assertion = .error stop) ∧ ¬ assertion.constraint.Holds w) ∨
    ∃ kept, table.absorb settings assertion = .ok (.kept kept) ∧ kept.constraint.Closed ∧
      (kept.constraint.Holds w ↔ assertion.constraint.Holds w) := by
  have hOffered := hClosed.offered table settings
  have hHolds := table.holds_offered_iff settings assertion.constraint hw
  rcases table.absorb_cases settings assertion with ⟨a, b, hEqual, hCases⟩ | hKept
  · rw [hEqual] at hOffered hHolds
    obtain ⟨ha, hb⟩ := List.append_eq_nil_iff.mp hOffered.vars
    have hIff : a.value w - b.value w = 0 ↔ assertion.constraint.Holds w := by
      rw [sub_eq_zero]
      exact hHolds
    rw [difference_of_closed ha hb w] at hCases
    rcases table.unify_ofConstant (a.value w - b.value w) settings.unification assertion.label with
      hNone | ⟨hZero, hSome⟩ | ⟨hNonzero, stop, hStop⟩
    · rcases hCases with ⟨stop, hUnify, -⟩ | ⟨next, hUnify, -⟩
      · rw [hNone] at hUnify
        cases hUnify
      · rw [hNone] at hUnify
        cases hUnify
    · rcases hCases with ⟨stop, hUnify, -⟩ | ⟨next, hUnify, hAbsorb⟩
      · rw [hSome] at hUnify
        cases hUnify
      · rw [hSome] at hUnify
        cases hUnify
        exact .inl ⟨hAbsorb, hIff.mp hZero⟩
    · rcases hCases with ⟨stop', -, hAbsorb⟩ | ⟨next, hUnify, -⟩
      · exact .inr (.inl ⟨⟨stop', hAbsorb⟩, fun h => hNonzero (hIff.mpr h)⟩)
      · rw [hStop] at hUnify
        cases hUnify
  · exact .inr (.inr ⟨_, hKept, hOffered, hHolds⟩)

namespace Draft

variable {p : Nat} [Modulus p] {settings : Settings} (table : VariableTable p)

/-- A condition is decided without adding anything: it holds, or it is refused. -/
inductive Decides (draft : Draft p) (condition : Prop) : Except Fault Unit × Draft p → Prop
  | passed (h : condition) : Decides draft condition (.ok (), draft)
  | refused (fault : Fault) (h : ¬ condition) : Decides draft condition (.error fault, draft)

omit [Modulus p] in
theorem Decides.congr {draft : Draft p} {P Q : Prop} {result : Except Fault Unit × Draft p}
    (h : draft.Decides P result) (hPQ : P ↔ Q) : draft.Decides Q result := by
  rwa [← propext hPQ]

theorem operand_closed (draft : Draft p) {e : Expr p} (h : e.vars = []) (w : Nat → Residue p) :
    draft.operand settings table e = (⟨0, none, e.value w⟩, draft) := by
  rw [operand, Expr.linear_of_closed h w, VariableTable.resolveAs_ofConstant]
  rfl

theorem operand?_closed (draft : Draft p) {operands : List (Expr p)}
    (h : operands.flatMap Expr.vars = []) (w : Nat → Residue p) (i : Nat) :
    draft.operand? settings table operands[i]? =
      (⟨0, none, Constraint.registerValue w operands i⟩, draft) := by
  cases hOperand : operands[i]? with
  | none =>
      have hRegister : Constraint.registerValue w operands i = 0 := by
        simp [Constraint.registerValue, hOperand]
      rw [hRegister]
      rfl
  | some e =>
      have hClosed : e.vars = [] := List.flatMap_eq_nil_iff.mp h e (List.mem_of_getElem? hOperand)
      have hRegister : Constraint.registerValue w operands i = e.value w := by
        simp [Constraint.registerValue, hOperand]
      rw [hRegister]
      exact operand_closed table draft hClosed w

theorem emitGeneric_closed (draft : Draft p) (hFold : settings.foldConstants = true)
    (assertion : Assertion p) (k : HalfCoeffs p) (l r o : Residue p) :
    draft.Decides (k.residual l r o = 0)
      (draft.emitGeneric settings assertion k ⟨0, none, l⟩ ⟨0, none, r⟩ ⟨0, none, o⟩) := by
  have hConstant : (operandCoeffs k ⟨0, none, l⟩ ⟨0, none, r⟩ ⟨0, none, o⟩).constant =
      k.residual l r o := rfl
  unfold emitGeneric
  simp only [hFold, hConstant, and_self, if_true]
  split_ifs with hZero
  · exact .passed hZero
  · exact .refused _ hZero

theorem emitEqual_closed (draft : Draft p) (hFold : settings.foldConstants = true)
    (assertion : Assertion p) {a b : Expr p} (ha : a.vars = []) (hb : b.vars = [])
    (w : Nat → Residue p) :
    draft.Decides (a.value w = b.value w) (draft.emitEqual settings table assertion a b) := by
  unfold emitEqual
  rw [VariableTable.difference_of_closed ha hb w, VariableTable.resolveAs_ofConstant]
  dsimp only [LinearForm.ofConstant]
  split_ifs with hNonzero hZero
  · exact .refused _ (sub_ne_zero.mp hNonzero.2)
  · exact .passed (sub_eq_zero.mp (not_not.mp fun h => hNonzero ⟨rfl, h⟩))
  · exact absurd ⟨rfl, hFold⟩ hZero

theorem emitRawHalf_closed (draft : Draft p) (hFold : settings.foldConstants = true)
    (assertion : Assertion p) {operands : List (Expr p)}
    (h : operands.flatMap Expr.vars = []) (w : Nat → Residue p) (k : HalfCoeffs p)
    (start : Nat) :
    draft.Decides (RawHalfHolds w operands k start)
      (draft.emitRawHalf settings table assertion operands k start) := by
  unfold emitRawHalf
  split_ifs with hZero
  · apply Decides.passed
    simp [RawHalfHolds, hZero, HalfCoeffs.zero, HalfCoeffs.residual]
  · simp only [operand?_closed table draft h w]
    exact draft.emitGeneric_closed hFold assertion k _ _ _

/-- Lowering decides a constraint over constants. -/
theorem lower_closed [Fact p.Prime] (draft : Draft p) (hFold : settings.foldConstants = true)
    {assertion : Assertion p} (h : assertion.constraint.Closed) (w : Nat → Residue p) :
    draft.Decides (assertion.constraint.Holds w) (draft.lower settings table assertion) := by
  obtain ⟨label, constraint⟩ := assertion
  have hVars := h.vars
  cases constraint with
  | equal a b =>
      obtain ⟨ha, hb⟩ := List.append_eq_nil_iff.mp hVars
      exact emitEqual_closed table draft hFold _ ha hb w
  | product a b c =>
      obtain ⟨hab, hc⟩ := List.append_eq_nil_iff.mp hVars
      obtain ⟨ha, hb⟩ := List.append_eq_nil_iff.mp hab
      simp only [lower, operand_closed table _ ha w, operand_closed table _ hb w,
        operand_closed table _ hc w]
      exact (draft.emitGeneric_closed hFold _ _ _ _ _).congr residual_productCoeffs_iff
  | square a b =>
      obtain ⟨ha, hb⟩ := List.append_eq_nil_iff.mp hVars
      simp only [lower, operand_closed table _ ha w, operand_closed table _ hb w]
      exact (draft.emitGeneric_closed hFold _ _ _ _ _).congr residual_productCoeffs_iff
  | boolean a =>
      simp only [lower, operand_closed table _ hVars w]
      exact (draft.emitGeneric_closed hFold _ _ _ _ _).congr residual_booleanCoeffs_iff
  | range a bits variant =>
      cases bits with
      | zero =>
          apply (emitEqual_closed table draft hFold _ hVars (b := 0) rfl w).congr
          exact (Residue.fitsIn_zero_iff _).symm
      | succ bits =>
          simp only [lower, operand_closed table _ hVars w, hFold, and_self, if_true]
          split_ifs with hFits
          · exact .passed hFits
          · exact .refused _ hFits
  | raw kind operands coeffs =>
      have hKind : kind = .generic := eq_of_beq h.checked
      subst hKind
      have hHalf := emitRawHalf_closed table draft hFold ⟨label, .raw .generic operands coeffs⟩
        hVars w
      have hFirst := hHalf (.ofListAt coeffs 0) 0
      simp only [lower]
      generalize draft.emitRawHalf settings table ⟨label, .raw .generic operands coeffs⟩ operands
        (.ofListAt coeffs 0) 0 = result at hFirst
      cases hFirst with
      | refused fault hNot => exact .refused fault fun hAll => hNot hAll.1
      | passed hHolds =>
          apply (hHalf (.ofListAt coeffs 5) 3).congr
          exact (and_iff_right hHolds).symm

theorem lowerAll_closed [Fact p.Prime] (draft : Draft p) (hFold : settings.foldConstants = true)
    {waiting : List (Assertion p)} (h : ∀ k ∈ waiting, k.constraint.Closed)
    (w : Nat → Residue p) :
    draft.Decides (∀ k ∈ waiting, k.constraint.Holds w)
      (lowerAll settings table draft waiting) := by
  induction waiting with
  | nil => exact .passed fun _ hk => absurd hk List.not_mem_nil
  | cons k rest ih =>
      have hFirst := lower_closed table draft hFold (h k List.mem_cons_self) w
      rw [lowerAll]
      generalize draft.lower settings table k = result at hFirst
      cases hFirst with
      | refused fault hNot => exact .refused fault fun hAll => hNot (hAll k List.mem_cons_self)
      | passed hHolds =>
          apply (ih fun k hk => h k (List.mem_cons_of_mem _ hk)).congr
          rw [List.forall_mem_cons, and_iff_right hHolds]

end Draft

theorem VariableTable.empty_consistent {p : Nat} [Modulus p] (w : Nat → Residue p) :
    (empty : VariableTable p).Consistent w := by
  intro x
  rw [rep_of_le empty_wellFormed (Nat.zero_le x)]
  simp [Rep.ofVar, Rep.value]

/-- A last round of absorption keeps constraints over constants that hold together or not. -/
theorem VariableTable.absorbAll_closed {p : Nat} [Modulus p] {table : VariableTable p}
    {waiting : List (Assertion p)} (h : ∀ k ∈ waiting, k.constraint.Closed)
    {w : Nat → Residue p} (hw : table.Consistent w) (settings : Settings) :
    (∃ kept unified, table.absorbAll settings waiting = (.ok (kept, unified), table) ∧
      (∀ k ∈ kept, k.constraint.Closed) ∧
      ((∀ k ∈ kept, k.constraint.Holds w) ↔ ∀ k ∈ waiting, k.constraint.Holds w)) ∨
    ((∃ stop, table.absorbAll settings waiting = (.error stop, table)) ∧
      ¬ ∀ k ∈ waiting, k.constraint.Holds w) := by
  induction waiting with
  | nil => exact .inl ⟨[], 0, rfl, h, Iff.rfl⟩
  | cons k rest ih =>
      have hRest := ih fun k hk => h k (List.mem_cons_of_mem _ hk)
      rw [absorbAll, List.forall_mem_cons]
      rcases absorb_closed (h k List.mem_cons_self) hw settings with
        ⟨hAbsorb, hHolds⟩ | ⟨⟨stop, hAbsorb⟩, hNot⟩ | ⟨simpler, hAbsorb, hClosed, hIff⟩
      · simp only [hAbsorb]
        rcases hRest with ⟨kept, unified, hAll, hKept, hSame⟩ | ⟨⟨stop, hAll⟩, hNot⟩
        · refine .inl ⟨kept, unified + 1, by rw [hAll]; rfl, hKept, ?_⟩
          rw [hSame, and_iff_right hHolds]
        · exact .inr ⟨⟨stop, by rw [hAll]; rfl⟩, fun hBoth => hNot hBoth.2⟩
      · simp only [hAbsorb]
        exact .inr ⟨⟨stop, rfl⟩, fun hBoth => hNot hBoth.1⟩
      · simp only [hAbsorb]
        rcases hRest with ⟨kept, unified, hAll, hKept, hSame⟩ | ⟨⟨stop, hAll⟩, hNot⟩
        · refine .inl ⟨simpler :: kept, unified, by rw [hAll]; rfl, ?_, ?_⟩
          · exact List.forall_mem_cons.mpr ⟨hClosed, hKept⟩
          · rw [List.forall_mem_cons, hIff, hSame]
        · exact .inr ⟨⟨stop, by rw [hAll]; rfl⟩, fun hBoth => hNot hBoth.2⟩

namespace Recording

variable {p : Nat} [Modulus p]

/-- A recording of constraints over constants, with constant folding. What waits holds under the
given condition. -/
structure Folds (recording : Recording p) (condition : Prop) : Prop where
  foldConstants : recording.settings.foldConstants = true
  closed : ∀ k ∈ recording.waiting.toList, k.constraint.Closed
  holds : (∀ k ∈ recording.waiting.toList, k.constraint.Holds 0) ↔ condition

theorem start_folds {settings : Settings} (hFold : settings.foldConstants = true) :
    (start settings : Recording p).Folds True where
  foldConstants := hFold
  closed := by simp [start]
  holds := by simp [start]

/-- A constraint over constants is refused at once, or counts among those that have to hold. -/
theorem Folds.add {recording : Recording p} {condition : Prop} (h : recording.Folds condition)
    {assertion : Assertion p} (hClosed : assertion.constraint.Closed) :
    (∃ next, recording.add .empty assertion = (.ok (), next, .empty) ∧
      next.Folds (condition ∧ assertion.constraint.Holds 0)) ∨
    (∃ stop next, recording.add .empty assertion = (.error stop, next, .empty)) ∧
      ¬ assertion.constraint.Holds 0 := by
  obtain ⟨settings, waiting, recorded, unified⟩ := recording
  simp only [Recording.add, hClosed.arity]
  rcases VariableTable.absorb_closed hClosed (VariableTable.empty_consistent 0) settings with
    ⟨hAbsorb, hHolds⟩ | ⟨⟨stop, hAbsorb⟩, hNot⟩ | ⟨kept, hAbsorb, hKept, hIff⟩
  · simp only [hAbsorb]
    refine .inl ⟨_, rfl, h.foldConstants, h.closed, ?_⟩
    rw [and_iff_left hHolds]
    exact h.holds
  · simp only [hAbsorb]
    exact .inr ⟨⟨stop, _, rfl⟩, hNot⟩
  · simp only [hAbsorb]
    refine .inl ⟨_, rfl, h.foldConstants, ?_, ?_⟩
    · rw [Array.toList_push, List.forall_mem_append]
      exact ⟨h.closed, by simpa using hKept⟩
    · rw [Array.toList_push, List.forall_mem_append, h.holds, ← hIff]
      simp

/-- Constraints over constants are lowered to nothing if they hold, and refused otherwise. -/
theorem assemble_closed [Fact p.Prime] (recording : Recording p)
    (hFold : recording.settings.foldConstants = true) {waiting : List (Assertion p)}
    (h : ∀ k ∈ waiting, k.constraint.Closed) (unified : Nat) :
    (∃ circuit, recording.assemble .empty waiting unified = .ok circuit ∧ circuit.gates = [] ∧
      circuit.variableCount = 0 ∧ ∀ k ∈ waiting, k.constraint.Holds 0) ∨
    (∃ fault, recording.assemble .empty waiting unified = .error fault) ∧
      ¬ ∀ k ∈ waiting, k.constraint.Holds 0 := by
  have hLower := Draft.lowerAll_closed .empty .empty hFold h 0
  generalize hResult : Draft.empty.lowerAll recording.settings .empty waiting = result at hLower
  cases hLower with
  | passed hHolds =>
      refine .inl ⟨_, assemble_eq_ok_iff.mpr ⟨.empty, [], [], 0, hResult, .nil, ?_, rfl, rfl⟩,
        rfl, rfl, hHolds⟩
      exact .nil
  | refused fault hNot =>
      refine .inr ⟨?_, hNot⟩
      cases hAssemble : recording.assemble .empty waiting unified with
      | error fault => exact ⟨fault, rfl⟩
      | ok circuit =>
          obtain ⟨draft, -, -, -, hLowered, -⟩ := assemble_eq_ok_iff.mp hAssemble
          rw [hResult] at hLowered
          cases hLowered

theorem Folds.finalize [Fact p.Prime] {recording : Recording p} {condition : Prop}
    (h : recording.Folds condition) :
    (∃ circuit, recording.finalize .empty = (.ok circuit, .empty) ∧ circuit.gates = [] ∧
      circuit.variableCount = 0 ∧ condition) ∨
    (∃ stop, recording.finalize .empty = (.error stop, .empty)) ∧ ¬ condition := by
  rw [Recording.finalize]
  rcases VariableTable.absorbAll_closed h.closed (VariableTable.empty_consistent 0)
    recording.settings with ⟨kept, unified, hAbsorb, hKept, hSame⟩ | ⟨⟨stop, hAbsorb⟩, hNot⟩
  · simp only [hAbsorb]
    rcases recording.assemble_closed h.foldConstants hKept (recording.unified + unified) with
      ⟨circuit, hAssemble, hGates, hCount, hHolds⟩ | ⟨⟨fault, hAssemble⟩, hNot⟩
    · simp only [hAssemble]
      exact .inl ⟨circuit, rfl, hGates, hCount, h.holds.mp (hSame.mp hHolds)⟩
    · simp only [hAssemble]
      exact .inr ⟨⟨_, rfl⟩, fun hCondition => hNot (hSame.mpr (h.holds.mpr hCondition))⟩
  · simp only [hAbsorb]
    exact .inr ⟨⟨_, rfl⟩, fun hCondition => hNot (h.holds.mpr hCondition)⟩

end Recording

end ArithCircuit
