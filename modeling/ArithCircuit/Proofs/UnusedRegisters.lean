import ArithCircuit.Proofs.LiveWires
import ArithCircuit.Proofs.OtherRows

/-! Registers that are not used. Every half that lowering emits has zero coefficients on the
registers without a signal, whichever constraint it states. The cells of these registers are
therefore free: verification does not depend on them. -/
namespace ArithCircuit

/-- The coefficients ignore every register that is idle. The product counts for both of its
factors. -/
structure HalfCoeffs.Ignores {p : Nat} [Modulus p] (k : HalfCoeffs p) (left right out : Prop) :
    Prop where
  left : left → k.left = 0 ∧ k.product = 0
  right : right → k.right = 0 ∧ k.product = 0
  out : out → k.out = 0

/-- A half ignores the registers that have no signal. -/
def Half.Sparse {p : Nat} [Modulus p] (half : Half p) : Prop :=
  half.coeffs.Ignores (half.left = none) (half.right = none) (half.out = none)

/-- The halves of a gate ignore the registers with wire zero. -/
def Gate.Sparse {p : Nat} [Modulus p] (gate : Gate p) : Prop :=
  ∀ (i : Nat) (k : HalfCoeffs p), (Circuit.halvesOf gate.coeffs)[i]? = some k →
    k.Ignores (gate.wire (3 * i) = 0) (gate.wire (3 * i + 1) = 0) (gate.wire (3 * i + 2) = 0)

/-- The values in two rows are the same wherever the gate has a wire. -/
def Gate.Agrees {p : Nat} [Modulus p] (gate : Gate p) (cells cells' : Cells p) : Prop :=
  ∀ register, gate.wire register ≠ 0 →
    Circuit.cell cells register = Circuit.cell cells' register

/-- As many rows in both, with the same values in all registers that are used. -/
structure Circuit.Agrees {p : Nat} [Modulus p] (circuit : Circuit p) (rows rows' : List (Cells p)) :
    Prop where
  height : rows.length = rows'.length
  cells : ∀ (i : Nat) (gate : Gate p) (cells cells' : Cells p), circuit.gates[i]? = some gate →
    rows[i]? = some cells → rows'[i]? = some cells' → gate.Agrees cells cells'

namespace HalfCoeffs

variable {p : Nat} [Modulus p] {k : HalfCoeffs p} {left right out : Prop}

/-- What a half computes does not depend on the registers that it ignores. -/
theorem Ignores.residual_congr (h : k.Ignores left right out) {l r o l' r' o' : Residue p}
    (hLeft : ¬ left → l = l') (hRight : ¬ right → r = r') (hOut : ¬ out → o = o') :
    k.residual l r o = k.residual l' r' o' := by
  have hLinear : k.left * l = k.left * l' := by
    by_cases hIdle : left
    · rw [(h.left hIdle).1, zero_mul, zero_mul]
    · rw [hLeft hIdle]
  have hLinear' : k.right * r = k.right * r' := by
    by_cases hIdle : right
    · rw [(h.right hIdle).1, zero_mul, zero_mul]
    · rw [hRight hIdle]
  have hResult : k.out * o = k.out * o' := by
    by_cases hIdle : out
    · rw [h.out hIdle, zero_mul, zero_mul]
    · rw [hOut hIdle]
  have hProduct : k.product * l * r = k.product * l' * r' := by
    by_cases hIdle : left ∨ right
    · have hZero : k.product = 0 := hIdle.elim (fun hl => (h.left hl).2) fun hr => (h.right hr).2
      simp only [hZero, zero_mul]
    · rw [hLeft fun hl => hIdle (.inl hl), hRight fun hr => hIdle (.inr hr)]
  rw [residual, residual, hLinear, hLinear', hResult, hProduct]

end HalfCoeffs

namespace Half

variable {p : Nat} [Modulus p]

theorem coeffAt_of_signalAt {terms : List (Residue p × Signal)} {i : Nat}
    (h : signalAt terms i = none) : coeffAt terms i = 0 := by
  rw [signalAt, Option.map_eq_none_iff] at h
  rw [coeffAt, h]
  rfl

theorem sumZero_sparse (terms : List (Residue p × Signal)) (constant : Residue p) :
    (sumZero terms constant).Sparse where
  left h := ⟨coeffAt_of_signalAt h, rfl⟩
  right h := ⟨coeffAt_of_signalAt h, rfl⟩
  out h := coeffAt_of_signalAt h

theorem defining_sparse (definition : AuxDef p) (signal : Signal) :
    (defining definition signal).Sparse where
  left h := ⟨coeffAt_of_signalAt h, rfl⟩
  right h := ⟨coeffAt_of_signalAt h, rfl⟩
  out h := by cases h

end Half

namespace Draft

variable {p : Nat} [Modulus p] {draft : Draft p} {settings : Settings} {table : VariableTable p}
  {assertion : Assertion p}

/-- Every half that was emitted ignores the registers that it does not use. -/
def Sparse (draft : Draft p) : Prop :=
  ∀ half, Emission.half half ∈ draft.emitted.toList → half.Sparse

/-- An operand without a signal is a constant. -/
def Scaled (x : Operand p) : Prop := x.signal = none → x.scale = 0

theorem emit_half_sparse (h : draft.Sparse) {half : Half p} (hHalf : half.Sparse) :
    (draft.emit (.half half)).Sparse := by
  intro other hOther
  rw [emit_emitted, Array.toList_push, List.mem_append, List.mem_singleton] at hOther
  rcases hOther with hOther | hOther
  · exact h other hOther
  · cases hOther
    exact hHalf

theorem emit_row_sparse (h : draft.Sparse) (kind : GateKind) (cells : List Signal)
    (coeffs : List (Residue p)) : (draft.emit (.row kind cells coeffs)).Sparse := by
  intro half hHalf
  rw [emit_emitted, Array.toList_push, List.mem_append, List.mem_singleton] at hHalf
  rcases hHalf with hHalf | hHalf
  · exact h half hHalf
  · cases hHalf

theorem define_sparse (h : draft.Sparse) (definition : AuxDef p) :
    (draft.define definition).2.Sparse := by
  rw [define]
  split
  · exact h
  · apply emit_half_sparse _ (Half.defining_sparse _ _)
    exact h

theorem reduce_sparse (keep : Nat) (h : draft.Sparse) (terms : List (Residue p × Signal)) :
    (draft.reduce keep terms).2.Sparse := by
  have hFrom (head : Residue p × Signal) (rest : List (Residue p × Signal)) :
      (draft.reduceFrom keep head rest).2.Sparse := by
    induction rest generalizing draft head with
    | nil => exact h
    | cons next rest ih =>
        rw [reduceFrom]
        split_ifs
        · exact ih (define_sparse h _) _
        · exact h
  cases terms with
  | nil => exact h
  | cons head rest => exact hFrom head rest

theorem operand_sparse (h : draft.Sparse) (settings : Settings) (table : VariableTable p)
    (e : Expr p) :
    Scaled (draft.operand settings table e).1 ∧ (draft.operand settings table e).2.Sparse := by
  have hReduce := reduce_sparse 1 h
    (signalTerms (table.resolveAs e.linear settings.normalizeOperands))
  rw [operand]
  generalize draft.reduce 1 _ = reduced at hReduce ⊢
  obtain ⟨terms, next⟩ := reduced
  cases terms with
  | nil => exact ⟨fun _ => rfl, hReduce⟩
  | cons term rest => exact ⟨fun hNone => (by cases hNone), hReduce⟩

theorem operand?_sparse (h : draft.Sparse) (settings : Settings) (table : VariableTable p)
    (e : Option (Expr p)) :
    Scaled (draft.operand? settings table e).1 ∧ (draft.operand? settings table e).2.Sparse := by
  cases e with
  | none => exact ⟨fun _ => rfl, h⟩
  | some e => exact operand_sparse h settings table e

theorem materialize_sparse (h : draft.Sparse) (x : Operand p) :
    (draft.materialize x).2.Sparse := by
  rw [materialize]
  split
  · exact define_sparse h _
  · split_ifs
    · exact h
    · exact define_sparse h _

theorem materializeAll_sparse (h : draft.Sparse) (settings : Settings) (table : VariableTable p)
    (operands : List (Expr p)) : (materializeAll settings table draft operands).2.Sparse := by
  induction operands generalizing draft with
  | nil => exact h
  | cons e rest ih => exact ih (materialize_sparse (operand_sparse h settings table e).2 _)

/-- Scales and constants of operands move into coefficients of registers that are used. -/
theorem operandCoeffs_ignores (k : HalfCoeffs p) {l r o : Operand p} (hl : Scaled l)
    (hr : Scaled r) (ho : Scaled o) :
    (operandCoeffs k l r o).Ignores (l.signal = none) (r.signal = none) (o.signal = none) where
  left h := by simp [operandCoeffs, hl h]
  right h := by simp [operandCoeffs, hr h]
  out h := by simp [operandCoeffs, ho h]

theorem emitGeneric_sparse (h : draft.Sparse) (settings : Settings) (assertion : Assertion p)
    (k : HalfCoeffs p) {l r o : Operand p} (hl : Scaled l) (hr : Scaled r) (ho : Scaled o) :
    (draft.emitGeneric settings assertion k l r o).2.Sparse := by
  rw [emitGeneric]
  split_ifs
  · exact h
  · exact h
  · exact emit_half_sparse h (operandCoeffs_ignores k hl hr ho)

theorem emitEqual_sparse (h : draft.Sparse) (settings : Settings) (table : VariableTable p)
    (assertion : Assertion p) (a b : Expr p) :
    (draft.emitEqual settings table assertion a b).2.Sparse := by
  rw [emitEqual]
  simp only
  split_ifs
  · exact h
  · exact h
  · exact emit_half_sparse (reduce_sparse 3 h _) (Half.sumZero_sparse _ _)

theorem emitRawHalf_sparse (h : draft.Sparse) (settings : Settings) (table : VariableTable p)
    (assertion : Assertion p) (operands : List (Expr p)) (k : HalfCoeffs p) (start : Nat) :
    (draft.emitRawHalf settings table assertion operands k start).2.Sparse := by
  rw [emitRawHalf]
  split_ifs
  · exact h
  · obtain ⟨hl, hLeft⟩ := operand?_sparse h settings table operands[start]?
    obtain ⟨hr, hRight⟩ := operand?_sparse hLeft settings table operands[start + 1]?
    obtain ⟨ho, hOut⟩ := operand?_sparse hRight settings table operands[start + 2]?
    exact emitGeneric_sparse hOut settings assertion k hl hr ho

/-- Whatever an assertion is lowered to, the halves ignore the registers that they do not use. -/
theorem lower_sparse (h : draft.Sparse) (settings : Settings) (table : VariableTable p)
    (assertion : Assertion p) : (draft.lower settings table assertion).2.Sparse := by
  obtain ⟨label, constraint⟩ := assertion
  cases constraint with
  | equal a b => exact emitEqual_sparse h settings table _ a b
  | product a b c =>
      obtain ⟨hl, hLeft⟩ := operand_sparse h settings table a
      obtain ⟨hr, hRight⟩ := operand_sparse hLeft settings table b
      obtain ⟨ho, hOut⟩ := operand_sparse hRight settings table c
      exact emitGeneric_sparse hOut settings _ productCoeffs hl hr ho
  | square a b =>
      obtain ⟨hl, hLeft⟩ := operand_sparse h settings table a
      obtain ⟨ho, hOut⟩ := operand_sparse hLeft settings table b
      exact emitGeneric_sparse hOut settings _ productCoeffs hl hl ho
  | boolean a =>
      obtain ⟨hl, hLeft⟩ := operand_sparse h settings table a
      exact emitGeneric_sparse hLeft settings _ booleanCoeffs hl hl fun _ => rfl
  | range a bits variant =>
      cases bits with
      | zero => exact emitEqual_sparse h settings table _ a 0
      | succ bits =>
          have hOperand := (operand_sparse h settings table a).2
          simp only [lower]
          split_ifs
          · exact hOperand
          · exact hOperand
          · exact emit_row_sparse (materialize_sparse hOperand _) _ _ _
  | raw kind operands coeffs =>
      by_cases hKind : kind = .generic
      · subst hKind
        have hFirst := emitRawHalf_sparse h settings table ⟨label, .raw .generic operands coeffs⟩
          operands (.ofListAt coeffs 0) 0
        simp only [lower]
        generalize draft.emitRawHalf settings table _ operands _ 0 = first at hFirst ⊢
        obtain ⟨result, next⟩ := first
        cases result with
        | error fault => exact hFirst
        | ok value => exact emitRawHalf_sparse hFirst settings table _ operands _ 3
      · rw [lower_raw_other draft settings table label hKind]
        exact emit_row_sparse (materializeAll_sparse h settings table operands) _ _ _

theorem lowerAll_sparse (h : draft.Sparse) (settings : Settings) (table : VariableTable p)
    (assertions : List (Assertion p)) : (lowerAll settings table draft assertions).2.Sparse := by
  induction assertions generalizing draft with
  | nil => exact h
  | cons assertion rest ih =>
      have hFirst := lower_sparse h settings table assertion
      rw [lowerAll]
      generalize draft.lower settings table assertion = first at hFirst ⊢
      obtain ⟨result, next⟩ := first
      cases result with
      | error fault => exact hFirst
      | ok value => exact ih hFirst

end Draft

namespace Row

variable {p : Nat} [Modulus p] {circuit : Circuit p} {count : Nat} {gate : Gate p}

theorem gate_sparse {row : Row p} (hRow : row.Proper (· < circuit.externalCount) count)
    (hSparse : ∀ half, Emission.half half ∈ row.emissions → half.Sparse)
    (hGate : row.gate circuit.externalCount = .ok gate) (hGeneric : gate.kind = .generic) :
    gate.Sparse := by
  rw [gate_eq] at hGate
  obtain ⟨hKind, hCoeffs, hRead⟩ := gateOn_eq_ok hRow.inScope hGate
  have hIdle (i : Nat) : gate.wire i = 0 ↔ row.registers.getD i none = none := by
    rw [← hRead, circuit.signalOf_eq_none_iff]
  simp only [Gate.Sparse, hCoeffs, hIdle]
  cases row with
  | single half =>
      have hHalves : Circuit.halvesOf (Row.single half).coeffs = [half.coeffs] := rfl
      rw [hHalves, Gate.forall_half_cons_iff]
      exact ⟨hSparse half (by simp [emissions]), by simp⟩
  | double first second =>
      have hHalves : Circuit.halvesOf (Row.double first second).coeffs =
        [first.coeffs, second.coeffs] := rfl
      rw [hHalves, Gate.forall_half_cons_iff, Gate.forall_half_cons_iff]
      exact ⟨hSparse first (by simp [emissions]), hSparse second (by simp [emissions]), by simp⟩
  | other kind cells coeffs =>
      exact absurd (hKind.symm.trans hGeneric) (hRow _ List.mem_cons_self).1

theorem publicGate_sparse {externals index : Nat}
    (hGate : publicGate externals index = .ok gate) : gate.Sparse := by
  obtain ⟨-, hCoeffs, hFirst, -⟩ := Circuit.publicGate_eq hGate
  have hUsed : gate.wire 0 ≠ 0 := by
    intro hZero
    rw [hZero] at hFirst
    cases hFirst
  have hHalves : Circuit.halvesOf ([1, 0, 0, 0, 0] : List (Residue p)) = [⟨1, 0, 0, 0, 0⟩] := rfl
  rw [Gate.Sparse, hCoeffs, hHalves, Gate.forall_half_cons_iff]
  exact ⟨⟨fun hIdle => absurd hIdle hUsed, fun _ => ⟨rfl, rfl⟩, fun _ => rfl⟩, by simp⟩

end Row

namespace Circuit

variable {p : Nat} [Modulus p] {circuit : Circuit p}

/-- Every generic gate of a circuit ignores the registers that it does not use: those that expose
public inputs, and those of what was emitted. -/
theorem Realizes.gates_sparse {settings : Settings} {table : VariableTable p}
    {waiting : List (Assertion p)} {draft : Draft p} {live : Nat → Prop}
    (h : circuit.Realizes settings table waiting draft) (hDraft : draft.WellFormed live)
    (hLess : ∀ x, live x → x < table.size) :
    ∀ gate ∈ circuit.gates, gate.kind = .generic → gate.Sparse := by
  intro gate hGate hGeneric
  rw [← List.take_append_drop circuit.publicCount circuit.gates] at hGate
  rcases List.mem_append.mp hGate with hPublic | hRow
  · obtain ⟨index, -, hMade⟩ := Traversal.exists_of_mem_right h.exposed hPublic
    exact Row.publicGate_sparse hMade
  · obtain ⟨row, hRow, hMade⟩ := Traversal.exists_of_mem_right h.rows hRow
    have hProper := (h.rows_proper hDraft hLess row hRow).imp fun _ => And.right
    apply Row.gate_sparse hProper _ hMade hGeneric
    intro half hHalf
    have hEmpty : (Draft.empty : Draft p).Sparse := by simp [Draft.Sparse, Draft.empty]
    have hSparse := Draft.lowerAll_sparse hEmpty settings table waiting
    rw [h.lowered] at hSparse
    apply hSparse
    rw [← Layout.ofEmissions_emissions settings.batchHalves draft.emitted.toList]
    exact List.mem_flatMap.mpr ⟨row, hRow, hHalf⟩

theorem verifyHalves_ok_congr {cells cells' : Cells p} (row : Nat) (input : Residue p)
    (start : Nat) (halves : List (HalfCoeffs p))
    (h : ∀ (i : Nat) (k : HalfCoeffs p), halves[i]? = some k →
      k.residual (cell cells (3 * (start + i))) (cell cells (3 * (start + i) + 1))
          (cell cells (3 * (start + i) + 2)) =
        k.residual (cell cells' (3 * (start + i))) (cell cells' (3 * (start + i) + 1))
          (cell cells' (3 * (start + i) + 2))) :
    verifyHalves row cells input start halves = .ok () ↔
      verifyHalves row cells' input start halves = .ok () := by
  induction halves generalizing start with
  | nil => rfl
  | cons k rest ih =>
      obtain ⟨hFirst, hRest⟩ := Gate.forall_half_cons_iff.mp h
      rw [Nat.add_zero] at hFirst
      have hNext := ih (start + 1) fun i k' hk' => by
        rw [Nat.add_assoc, Nat.add_comm 1]
        exact hRest i k' hk'
      simp only [verifyHalves, hFirst]
      split_ifs
      · exact hNext
      · simp

theorem verifyFrom_cons_eq_ok {gate : Gate p} (hGeneric : gate.kind = .generic) {row : Nat}
    {inputs : List (Residue p)} {gates : List (Gate p)} {cells : Cells p} {rows : List (Cells p)} :
    verifyFrom row inputs (gate :: gates) (cells :: rows) = .ok () ↔
      verifyHalves row cells (inputs.headD 0) 0 (halvesOf gate.coeffs) = .ok () ∧
        verifyFrom (row + 1) inputs.tail gates rows = .ok () := by
  rw [verifyFrom, if_pos hGeneric]
  cases verifyHalves row cells (inputs.headD 0) 0 (halvesOf gate.coeffs) with
  | error fault => simp
  | ok value => simp

/-- Rows that agree on the registers in use are both accepted or both rejected. -/
theorem verifyFrom_ok_congr {gates : List (Gate p)} {rows rows' : List (Cells p)}
    (hSparse : ∀ gate ∈ gates, gate.kind = .generic → gate.Sparse)
    (hHeight : rows.length = rows'.length)
    (hCells : ∀ (i : Nat) (gate : Gate p) (cells cells' : Cells p), gates[i]? = some gate →
      rows[i]? = some cells → rows'[i]? = some cells' → gate.Agrees cells cells')
    (row : Nat) (inputs : List (Residue p)) :
    verifyFrom row inputs gates rows = .ok () ↔ verifyFrom row inputs gates rows' = .ok () := by
  induction gates generalizing row inputs rows rows' with
  | nil => simp [verifyFrom]
  | cons gate rest ih =>
      cases rows with
      | nil =>
          obtain rfl := List.length_eq_zero_iff.mp hHeight.symm
          rfl
      | cons cells others =>
          cases rows' with
          | nil => cases hHeight
          | cons cells' others' =>
              obtain ⟨hGate, hGates⟩ := List.forall_mem_cons.mp hSparse
              have hAgrees : gate.Agrees cells cells' := hCells 0 gate cells cells' rfl rfl rfl
              have hHalves (hGeneric : gate.kind = .generic) :
                  verifyHalves row cells (inputs.headD 0) 0 (halvesOf gate.coeffs) = .ok () ↔
                    verifyHalves row cells' (inputs.headD 0) 0 (halvesOf gate.coeffs) = .ok () := by
                apply verifyHalves_ok_congr
                intro i k hk
                rw [Nat.zero_add]
                exact (hGate hGeneric i k hk).residual_congr (hAgrees _) (hAgrees _) (hAgrees _)
              have hRest := ih hGates (Nat.succ.inj hHeight)
                (fun i => hCells (i + 1)) (row + 1) inputs.tail
              by_cases hGeneric : gate.kind = .generic
              · rw [verifyFrom_cons_eq_ok hGeneric, verifyFrom_cons_eq_ok hGeneric,
                  hHalves hGeneric, hRest]
              · simp only [verifyFrom, if_neg hGeneric, hRest]

theorem Agrees.verify_ok_congr {rows rows' : List (Cells p)} (h : circuit.Agrees rows rows')
    (hSparse : ∀ gate ∈ circuit.gates, gate.kind = .generic → gate.Sparse)
    (inputs : List (Residue p)) :
    circuit.verify rows inputs = .ok () ↔ circuit.verify rows' inputs = .ok () := by
  rw [verify, verify, h.height]
  split_ifs
  · rfl
  · rfl
  · exact verifyFrom_ok_congr hSparse h.height h.cells 0 inputs

end Circuit

/-- Verification is insensitive to unused cells. In a circuit finished after any run of allocations
and recorded assertions over allocated variables, a generic half has no coefficient on a register
with wire zero. Rows that agree on all other registers are therefore both accepted or both
rejected, for any public values. -/
theorem Recording.finalize_ignores_unused {p : Nat} [Modulus p] [Fact p.Prime]
    {settings : Settings} {recording : Recording p} {table final : VariableTable p}
    {circuit : Circuit p} (hRun : Reached settings recording table)
    (hFinalize : recording.finalize table = (.ok circuit, final)) :
    (∀ gate ∈ circuit.gates, gate.kind = .generic →
      ∀ (i : Nat) (k : HalfCoeffs p), (Circuit.halvesOf gate.coeffs)[i]? = some k →
        (gate.wire (3 * i) = 0 → k.left = 0 ∧ k.product = 0) ∧
        (gate.wire (3 * i + 1) = 0 → k.right = 0 ∧ k.product = 0) ∧
        (gate.wire (3 * i + 2) = 0 → k.out = 0)) ∧
    ∀ (rows rows' : List (Cells p)) (inputs : List (Residue p)), circuit.Agrees rows rows' →
      (circuit.verify rows inputs = .ok () ↔ circuit.verify rows' inputs = .ok ()) := by
  obtain ⟨-, accepted, hAccepted⟩ := hRun.hasAccepted
  obtain ⟨live, waiting, draft, -, -, hRealizes, hLess, hEmits⟩ := hAccepted.realizes hFinalize
  have hSparse := hRealizes.gates_sparse hEmits.wellFormed hLess
  constructor
  · intro gate hGate hGeneric i k hk
    have hIgnores := hSparse gate hGate hGeneric i k hk
    exact ⟨hIgnores.left, hIgnores.right, hIgnores.out⟩
  · intro rows rows' inputs hAgrees
    exact hAgrees.verify_ok_congr hSparse inputs

/-- A boolean variable takes the first two registers of its row, and any value may stand in the
others. -/
theorem Recording.finalize_ignores_unused_boolean :
    let assertion : Assertion 7 := ⟨none, .boolean (.var 0)⟩
    let recorded := (start Settings.standard).add (.allocated [] [none]) assertion
    let row (other : Residue 7) : Cells 7 := Vector.ofFn fun i => if i.val < 2 then 1 else other
    ∃ circuit, (recorded.2.1.finalize recorded.2.2).1 = .ok circuit ∧
      ∀ other, circuit.verify [row other] [] = .ok () := by
  intro assertion recorded row
  have : Fact (Nat.Prime 7) := ⟨by decide⟩
  have hVars : ∀ x ∈ assertion.constraint.vars, x < (.empty : VariableTable 7).size + 1 := by decide
  have hRun : Reached Settings.standard recorded.2.1 recorded.2.2 :=
    .add (.alloc .start none) hVars rfl
  have hMade : (recorded.2.1.finalize recorded.2.2).1.toOption.map (fun circuit =>
      (circuit.gates, (circuit.verify [row 0] []).toOption)) =
      some ([⟨.generic, Gate.padWires [1, 1], [-1, 0, 0, 1, 0]⟩], some ()) := by decide +kernel
  rcases hFinalize : recorded.2.1.finalize recorded.2.2 with ⟨stop | circuit, final⟩
  · rw [hFinalize] at hMade
    cases hMade
  · rw [hFinalize] at hMade
    obtain ⟨hGates, hZero⟩ := Prod.mk.inj (Option.some.inj hMade)
    refine ⟨circuit, rfl, fun other => ?_⟩
    have hAgrees : circuit.Agrees [row 0] [row other] := by
      refine ⟨by simp, fun i gate cells cells' hGate hCells hCells' register hUsed => ?_⟩
      cases i with
      | succ i => cases hCells
      | zero =>
          obtain rfl := Option.some.inj hCells
          obtain rfl := Option.some.inj hCells'
          rw [hGates] at hGate
          obtain rfl := Option.some.inj hGate
          rw [Gate.wire_padWires .generic (by decide)] at hUsed
          have hFirstTwo : register < 2 := by
            by_contra hLarge
            apply hUsed
            rw [List.getD_eq_getElem?_getD, List.getElem?_eq_none (Nat.le_of_not_lt hLarge)]
            rfl
          have hSmall : register < rowWidth := Nat.lt_trans hFirstTwo (by decide)
          simp [Circuit.cell, row, hSmall, Nat.le_of_lt_succ hFirstTwo]
    apply ((finalize_ignores_unused hRun hFinalize).2 _ _ [] hAgrees).mp
    cases hVerify : circuit.verify [row 0] [] with
    | ok value => rfl
    | error fault =>
        rw [hVerify] at hZero
        cases hZero

end ArithCircuit
