import ArithCircuit.Proofs.Lowering.RowCount
import ArithCircuit.Proofs.Soundness

/-! Rows of other kinds than generic. Recording keeps the assertions that ask for such a row, in
their order, and each of them is lowered to exactly one row. Its cells are signals that hold the
operands: where the generic rows compute zero, the wires of the row have the values of the operands
under the assignment through representatives. -/
namespace ArithCircuit

namespace VariableTable

variable {p : Nat} [Modulus p]

theorem rowFor_of_isAlgebraic (table : VariableTable p) (settings : Settings) {c : Constraint p}
    (h : c.isAlgebraic = true) : table.rowFor settings c = none := by
  cases c with
  | range a bits variant =>
      obtain rfl : bits = 0 := by simpa [Constraint.isAlgebraic] using h
      rfl
  | raw kind operands coeffs =>
      obtain rfl : kind = .generic := by simpa [Constraint.isAlgebraic] using h
      rfl
  | _ => rfl

end VariableTable

/-- Recording keeps what asks for a row of another kind, in its order. -/
theorem Records.rowFor_waiting {p : Nat} [Modulus p] {settings : Settings}
    {accepted waiting : List (Assertion p)} {table : VariableTable p}
    (h : Records settings accepted waiting table) (final : VariableTable p) :
    waiting.filterMap (fun a => final.rowFor settings a.constraint) =
      accepted.filterMap fun a => final.rowFor settings a.constraint := by
  induction h with
  | start _ => rfl
  | grow _ _ _ ih => exact ih
  | offer _ _ _ ih => rw [List.filterMap_append, List.filterMap_append, ih]
  | absorbed _ hAbsorb ih =>
      have hNone := final.rowFor_of_isAlgebraic settings
        (VariableTable.isAlgebraic_of_absorbed hAbsorb)
      rw [← ih, List.filterMap_append, List.filterMap_append, List.filterMap_cons, hNone]
  | @kept _ before after table assertion simpler _ hAbsorb ih =>
      obtain rfl := VariableTable.absorb_kept hAbsorb
      have hRow : final.rowFor settings (table.offered settings assertion.constraint) =
          final.rowFor settings assertion.constraint := by
        rcases VariableTable.offered_cases table settings assertion.constraint with
          hSame | ⟨hAlgebraic, a, b, hEqual⟩
        · rw [hSame]
        · rw [hEqual, final.rowFor_of_isAlgebraic settings hAlgebraic]
          rfl
      rw [← ih, List.filterMap_append, List.filterMap_append, List.filterMap_cons,
        List.filterMap_cons, hRow]

namespace Emission

variable {p : Nat}

def isRow : Emission p → Bool
  | .half _ => false
  | .row _ _ _ => true

end Emission

namespace Draft

variable {p : Nat} [Modulus p] {live : Nat → Prop} {draft next : Draft p}
  {table : VariableTable p} {settings : Settings} {assertion : Assertion p}
  {assertions : List (Assertion p)}

/-- What was emitted is the row of a request, with a cell for each operand. Where the auxiliary
variables have the values of their definitions, the cells have the values of the operands. -/
def Fills (draft : Draft p) (table : VariableTable p) (request : RowRequest p)
    (emission : Emission p) : Prop :=
  ∃ cells, emission = .row request.kind cells request.coeffs ∧
    cells.length = request.operands.length ∧
    ∀ σ, draft.Solves σ →
      cells.map σ = request.operands.map (Expr.value (table.classValue (σ ∘ .var)))

theorem Fills.later {request : RowRequest p} {emission : Emission p}
    (h : draft.Fills table request emission)
    (hNext : ∀ σ, next.Solves σ → draft.Solves σ) : next.Fills table request emission := by
  obtain ⟨cells, hRow, hLength, hValues⟩ := h
  exact ⟨cells, hRow, hLength, fun σ hσ => hValues σ (hNext σ hσ)⟩

omit [Modulus p] in
theorem AddsHalves.filter_isRow {extra : Nat} (h : AddsHalves extra draft next) :
    next.emitted.toList.filter Emission.isRow = draft.emitted.toList.filter Emission.isRow := by
  obtain ⟨halves, hEmitted, -⟩ := h.emitted
  have hNone : (halves.map Emission.half).filter Emission.isRow = [] := by
    simp [Emission.isRow]
  rw [hEmitted, List.filter_append, hNone, List.append_nil]

/-- Lowering an assertion emits the row that it asks for, and no other. -/
theorem lower_rows (hDraft : draft.WellFormed live)
    (hLive : table.LiveReps live assertion.constraint.vars)
    (h : draft.lower settings table assertion = (.ok (), next)) :
    ∃ rows, next.emitted.toList.filter Emission.isRow =
        draft.emitted.toList.filter Emission.isRow ++ rows ∧
      List.Forall₂ (next.Fills table) (table.rowFor settings assertion.constraint).toList rows := by
  rcases lower_ok_cases h with
    ⟨hNone, extra, -, hAdds, -, -⟩ | ⟨request, hRequest, rfl, hKind, -, -, hVars⟩
  · rw [hNone, hAdds.filter_isRow]
    exact ⟨[], by simp, .nil⟩
  · rw [← hVars] at hLive
    have hAdds := materializeAll_adds draft settings table request.operands
    obtain ⟨cells, final, hCells, -, hLength, -, hValues⟩ :=
      materializeAll_emits hDraft settings request.operands hLive
    rw [hCells] at hAdds ⊢
    rw [hRequest, emit_emitted, Array.toList_push, List.filter_append, hAdds.filter_isRow]
    exact ⟨_, rfl, .cons ⟨cells, rfl, hLength, hValues⟩ .nil⟩

/-- Lowering emits exactly the rows that are asked for, in order. -/
theorem lowerAll_rows [Fact p.Prime] (hDraft : draft.WellFormed live)
    (hArity : ∀ k ∈ assertions, k.constraint.checkArity = .ok ())
    (hLive : ∀ k ∈ assertions, table.LiveReps live k.constraint.vars)
    (h : lowerAll settings table draft assertions = (.ok (), next)) :
    (∀ σ, next.Solves σ → draft.Solves σ) ∧
      ∃ rows, next.emitted.toList.filter Emission.isRow =
          draft.emitted.toList.filter Emission.isRow ++ rows ∧
        List.Forall₂ (next.Fills table)
          (assertions.filterMap fun k => table.rowFor settings k.constraint) rows := by
  induction assertions generalizing draft with
  | nil =>
      cases h
      exact ⟨fun _ => id, [], by simp, .nil⟩
  | cons k rest ih =>
      rw [lowerAll] at h
      split at h
      · cases h
      · rename_i middle hLower
        have hLowers := lower_lowers hDraft settings k (hArity k List.mem_cons_self)
          (hLive k List.mem_cons_self)
        rw [hLower] at hLowers
        cases hLowers with
        | emitted hEmits =>
            obtain ⟨first, hFirst, hFirstFills⟩ :=
              lower_rows hDraft (hLive k List.mem_cons_self) hLower
            obtain ⟨hSolves, others, hOthers, hFills⟩ := ih hEmits.wellFormed
              (fun k hk => hArity k (List.mem_cons_of_mem _ hk))
              (fun k hk => hLive k (List.mem_cons_of_mem _ hk)) h
            refine ⟨fun σ hσ => hEmits.solves (hSolves σ hσ), first ++ others, ?_, ?_⟩
            · rw [hOthers, hFirst, List.append_assoc]
            · rw [List.filterMap_eq_flatMap_toList] at hFills ⊢
              exact List.rel_append (hFirstFills.imp fun _ _ hFill => hFill.later hSolves) hFills

end Draft

namespace Row

variable {p : Nat} {live : Nat → Prop} {externals count : Nat}

/-- Rows of other kinds are those that were emitted as such. -/
theorem filter_kind {rows : List (Row p)} (hRows : ∀ row ∈ rows, row.Proper live count) :
    rows.filter (fun row => row.kind ≠ .generic) =
      ((rows.flatMap emissions).filter Emission.isRow).map Emission.ownRow := by
  induction rows with
  | nil => rfl
  | cons row rest ih =>
      obtain ⟨hRow, hRest⟩ := List.forall_mem_cons.mp hRows
      rw [List.flatMap_cons, List.filter_append, List.map_append, ← ih hRest, List.filter_cons]
      cases row with
      | single half => simp [Row.kind, emissions, Emission.isRow]
      | double first second => simp [Row.kind, emissions, Emission.isRow]
      | other kind cells coeffs =>
          have hKind : (Row.other kind cells coeffs).kind ≠ .generic :=
            (hRow _ List.mem_cons_self).1
          rw [if_pos (decide_eq_true hKind)]
          rfl

theorem publicGates_generic [Modulus p] {indices : List Nat} {gates : List (Gate p)}
    (h : List.Forall₂ (fun i gate => publicGate externals i = .ok gate) indices gates) :
    ∀ gate ∈ gates, gate.kind = .generic := by
  induction h with
  | nil => simp
  | cons hGate _ ih =>
      obtain ⟨wires, -, -, rfl⟩ := gateOn_eq_ok_iff.mp hGate
      exact List.forall_mem_cons.mpr ⟨rfl, ih⟩

end Row

namespace Circuit

variable {p : Nat} [Modulus p] {circuit : Circuit p} {settings : Settings}
  {table : VariableTable p} {waiting : List (Assertion p)} {draft : Draft p} {live : Nat → Prop}

/-- The gates of other kinds are made from the rows that were emitted. -/
theorem Realizes.other_gates (h : circuit.Realizes settings table waiting draft)
    (hDraft : draft.WellFormed live) (hLess : ∀ x, live x → x < table.size) :
    List.Forall₂ (fun row gate => Row.gate circuit.externalCount row = .ok gate)
      ((draft.emitted.toList.filter Emission.isRow).map Emission.ownRow)
      (circuit.gates.filter fun gate => gate.kind ≠ .generic) := by
  have hPublic : (circuit.gates.take circuit.publicCount).filter (fun gate =>
      gate.kind ≠ .generic) = [] := by
    rw [List.filter_eq_nil_iff]
    intro gate hGate
    simp [Row.publicGates_generic h.exposed gate hGate]
  have hOthers := Row.filter_kind (h.rows_proper hDraft hLess)
  rw [← Layout.emissions, Layout.ofEmissions_emissions] at hOthers
  rw [← hOthers, ← List.take_append_drop circuit.publicCount circuit.gates, List.filter_append,
    hPublic, List.nil_append]
  refine List.rel_filter (fun row gate hGate => ?_) h.rows
  simp [Row.kind_of_gate hGate]

end Circuit

/-- The gate is the row of a request. It has as many wires as the request has operands, from the
first register on. Where the generic rows of the circuit after the public ones compute zero, these
wires have the values of the operands, each variable valued through its representative. -/
structure RowRequest.IsCarried {p : Nat} [Modulus p] (request : RowRequest p) (circuit : Circuit p)
    (table : VariableTable p) (gate : Gate p) : Prop where
  kind : gate.kind = request.kind
  coeffs : gate.coeffs = request.coeffs
  wires : ∀ i, gate.wire i = 0 ↔ request.operands.length ≤ i
  cells : ∀ values, (∀ gate ∈ circuit.gates.drop circuit.publicCount, gate.Vanishes values) →
    ∀ i e, request.operands[i]? = some e → wireValue values (gate.wire i) =
      e.value fun x => (table.rep x).value fun index => values (index + 1)

namespace Circuit

variable {p : Nat} [Modulus p] {circuit : Circuit p} {settings : Settings}
  {table : VariableTable p} {waiting : List (Assertion p)} {draft : Draft p} {live : Nat → Prop}

omit [Modulus p] in
theorem signalOf_eq_none_iff (circuit : Circuit p) (wire : UInt32) :
    circuit.signalOf wire = none ↔ wire = 0 := by
  rw [signalOf]
  split_ifs with hUnused <;> simp [hUnused]

/-- The row that was emitted for a request carries it. -/
theorem Realizes.isCarried (h : circuit.Realizes settings table waiting draft)
    (hDraft : draft.WellFormed live) (hLess : ∀ x, live x → x < table.size)
    {request : RowRequest p} {emission : Emission p} {gate : Gate p}
    (hMem : emission ∈ draft.emitted.toList) (hFills : draft.Fills table request emission)
    (hGate : emission.ownRow.gate circuit.externalCount = .ok gate) :
    request.IsCarried circuit table gate := by
  obtain ⟨cells, rfl, hLength, hValues⟩ := hFills
  have hScope : ∀ s, some s ∈ cells.map some →
      s.InScope (· < circuit.externalCount) draft.aux.size := by
    intro s hs
    rw [h.externalCount]
    have hCell : s ∈ cells := by simpa using hs
    exact ((hDraft.proper _ hMem).2.2 s hCell).imp hLess
  obtain ⟨hKind, hCoeffs, hRead⟩ := Row.gateOn_eq_ok hScope hGate
  have hCell (i : Nat) : circuit.signalOf (gate.wire i) = cells[i]? := by
    rw [hRead, List.getD_eq_getElem?_getD, List.getElem?_map]
    cases cells[i]? <;> rfl
  refine ⟨hKind, hCoeffs, fun i => ?_, fun values hRows i e hOperand => ?_⟩
  · rw [← circuit.signalOf_eq_none_iff, hCell, List.getElem?_eq_none_iff, hLength]
  · have hAll := h.emissions_hold hLess hDraft hRows
    have hHeld := congrArg (·[i]?) (hValues _ (hDraft.solves hAll))
    simp only [List.getElem?_map, hOperand, Option.map_some] at hHeld
    obtain ⟨signal, hSignal, hValue⟩ := Option.map_eq_some_iff.mp hHeld
    rw [← onWires_onSignals circuit, onWires, hCell, hSignal]
    exact hValue

end Circuit

/-- Rows of other kinds carry the right values. After any recording over allocated variables that
can be finished, the gates of other kinds are those that the accepted assertions ask for, one for
each and in their order. -/
theorem Recording.finalize_other_rows {p : Nat} [Modulus p] [Fact p.Prime] (settings : Settings)
    (publics privates : List (Option (Residue p))) (assertions : List (Assertion p))
    (hVars : ∀ a ∈ assertions, ∀ x ∈ a.constraint.vars, x < publics.length + privates.length)
    {log : List (Outcome p)} {recording : Recording p} {table final : VariableTable p}
    {circuit : Circuit p}
    (hAdd : (start settings).addAll (.allocated publics privates) assertions =
      (log, recording, table))
    (hFinalize : recording.finalize table = (.ok circuit, final)) :
    List.Forall₂ (fun request gate => request.IsCarried circuit final gate)
      ((Outcome.accepted log).filterMap fun a => final.rowFor settings a.constraint)
      (circuit.gates.filter fun gate => gate.kind ≠ .generic) := by
  obtain ⟨-, rfl, hAccepted, -, -, -⟩ := addAll_allocated hVars hAdd
  obtain ⟨live, waiting, draft, hRecords, -, hRealizes, hLess, hEmits⟩ :=
    hAccepted.realizes hFinalize
  have hAny : ∀ a ∈ Outcome.accepted log, ∀ x ∈ a.constraint.vars, True := fun _ _ _ _ => trivial
  obtain ⟨-, rows, hRows, hFills⟩ := Draft.lowerAll_rows Draft.empty_wellFormed
    hRecords.recorded.arity (hRecords.recorded.liveReps hAny) hRealizes.lowered
  rw [hRecords.rowFor_waiting final] at hFills
  have hGates := hRealizes.other_gates hEmits.wellFormed hLess
  rw [List.forall₂_map_left_iff, hRows] at hGates
  refine (Traversal.forall₂_comp hFills hGates).imp ?_
  rintro request gate ⟨emission, hMem, hFill, hGate⟩
  have hEmitted : emission ∈ draft.emitted.toList := by
    refine (List.mem_filter.mp (?_ : emission ∈ draft.emitted.toList.filter Emission.isRow)).1
    rw [hRows]
    exact hMem
  exact hRealizes.isCarried hEmits.wellFormed hLess hEmitted hFill hGate

/-- A range check of a variable that is bound to another one, one of a constant, which is folded,
and a row over a sum and a constant: two rows are left. -/
theorem Recording.finalize_other_rows_folded :
    let assertions : List (Assertion 7) :=
      [⟨none, .equal (.var 1) (.add (.scale (.ofNat 7 2) (.var 0)) 1)⟩,
        ⟨none, .range (.var 1) 2 .single⟩, ⟨none, .range 1 2 .single⟩,
        ⟨none, .raw .xor16 [.add (.var 0) (.var 2), .const (.ofNat 7 3)] []⟩]
    let requests : List (RowRequest 7) := [⟨.rangeCheck0, [.var 1], [.ofNat 7 2]⟩,
      ⟨.xor16, [.add (.var 0) (.var 2), .const (.ofNat 7 3)], []⟩]
    let recorded := (start Settings.standard).addAll (.allocated [none] [none, none]) assertions
    ∃ circuit final, recorded.2.1.finalize recorded.2.2 = (.ok circuit, final) ∧
      List.Forall₂ (fun request gate => request.IsCarried circuit final gate) requests
        (circuit.gates.filter fun gate => gate.kind ≠ .generic) := by
  intro assertions requests recorded
  have : Fact (Nat.Prime 7) := ⟨by decide⟩
  have hOk : (recorded.2.1.finalize recorded.2.2).1.isOk := by decide +kernel
  have hRequests : (Outcome.accepted recorded.1).filterMap (fun a =>
      (recorded.2.1.finalize recorded.2.2).2.rowFor Settings.standard a.constraint) = requests := by
    decide +kernel
  rcases hFinal : recorded.2.1.finalize recorded.2.2 with ⟨_ | circuit, final⟩
  · rw [hFinal] at hOk
    cases hOk
  rw [hFinal] at hRequests
  have hRows := finalize_other_rows Settings.standard [none] [none, none] assertions (by decide)
    rfl hFinal
  exact ⟨circuit, final, rfl, hRequests ▸ hRows⟩

end ArithCircuit
