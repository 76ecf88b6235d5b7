import ArithCircuit.Proofs.Batching

/-! Gates mention live variables only. After a recording has been finished, every variable on a wire
represents its own class, and every auxiliary variable is defined, by the first half that mentions
it, from variables that come before it. The rows of a circuit are therefore filled from the values
of representatives alone. -/
namespace ArithCircuit

/-- The variable is in the table, free, and represents its own class. -/
def VariableTable.IsRepresentative {p : Nat} [Modulus p] (table : VariableTable p) (x : Nat) :
    Prop :=
  x < table.size ∧ table.rep x = .var x 1 0

/-- The half or row states the definition of an auxiliary variable. The variable is the output with
coefficient minus one, the terms of the definition have the other registers, and there is no
product. -/
structure Gate.Defines {p : Nat} [Modulus p] (circuit : Circuit p) (k : Nat)
    (definition : AuxDef p) (gate : Gate p) : Prop where
  kind : gate.kind = .generic
  coeffs : gate.coeffs = [Half.coeffAt definition.terms 0, Half.coeffAt definition.terms 1, -1, 0,
    definition.constant]
  left : circuit.signalOf (gate.wire 0) = Half.signalAt definition.terms 0
  right : circuit.signalOf (gate.wire 1) = Half.signalAt definition.terms 1
  out : circuit.signalOf (gate.wire 2) = some (.aux k)
  unused : ∀ i ≥ 3, circuit.signalOf (gate.wire i) = none

/-- The wires of a circuit are those of representatives and of auxiliary variables that are defined
before they are used. -/
structure Circuit.WellFounded {p : Nat} [Modulus p] (circuit : Circuit p)
    (table : VariableTable p) : Prop where
  /-- The first rows expose the public inputs in order, in a single half each. -/
  exposed : ∀ i < circuit.publicCount, ∃ gate, circuit.gates[i]? = some gate ∧
    gate.kind = .generic ∧ gate.coeffs = [1, 0, 0, 0, 0] ∧ (gate.wire 0).toNat = i + 1 ∧
    ∀ j ≥ 1, gate.wire j = 0
  public_free : ∀ i < circuit.publicCount, table.IsRepresentative i
  gates_live : ∀ gate ∈ circuit.gates, ∀ i x, circuit.signalOf (gate.wire i) = some (.var x) →
    table.IsRepresentative x
  wires_le : ∀ gate ∈ circuit.gates, ∀ i, (gate.wire i).toNat ≤ circuit.variableCount
  /-- A definition has at most two terms, over representatives and earlier variables. -/
  earlier : ∀ (k : Nat) (d : AuxDef p), circuit.aux[k]? = some d →
    d.terms.length ≤ 2 ∧ ∀ term ∈ d.terms, term.2.InScope table.IsRepresentative k
  distinct : circuit.aux.Nodup
  /-- Of all halves and rows, in the order in which they were emitted, the first one that mentions
  an auxiliary variable defines it. -/
  defined : ∀ (k : Nat) (d : AuxDef p), circuit.aux[k]? = some d → ∃ before gate after,
    circuit.gates.flatMap Gate.split = before ++ gate :: after ∧ gate.Defines circuit k d ∧
    ∀ other ∈ before, ∀ i, circuit.signalOf (other.wire i) ≠ some (.aux k)

/-- What a run of allocations and recorded assertions reaches. Variables may be allocated at any
time, public ones first, and an assertion that is refused is dropped. -/
inductive Recording.Reached {p : Nat} [Modulus p] (settings : Settings) :
    Recording p → VariableTable p → Prop where
  | start : Reached settings (.start settings) .empty
  | allocPublic {recording : Recording p} {table : VariableTable p}
      (prior : Reached settings recording table) (hPublic : table.size = table.publicCount)
      (value : Option (Residue p)) : Reached settings recording (table.allocPublic value)
  | alloc {recording : Recording p} {table : VariableTable p}
      (prior : Reached settings recording table) (value : Option (Residue p)) :
      Reached settings recording (table.alloc value)
  | add {recording next : Recording p} {table table' : VariableTable p} {assertion : Assertion p}
      {result : Except Stop Unit} (prior : Reached settings recording table)
      (hVars : ∀ x ∈ assertion.constraint.vars, x < table.size)
      (hAdd : recording.add table assertion = (result, next, table')) :
      Reached settings next table'

theorem VariableTable.Free.isRepresentative {p : Nat} [Modulus p] {table : VariableTable p}
    (hTable : table.WellFormed) {x : Nat} (h : table.Free x) : table.IsRepresentative x :=
  ⟨h.lt_size hTable, rep_of_free h⟩

/-- Lowering mentions free variables only, also when it is refused. -/
theorem Recorded.lowerAll_wellFormed {p : Nat} [Modulus p] [Fact p.Prime]
    {accepted waiting : List (Assertion p)} {table : VariableTable p}
    (h : Recorded accepted waiting table) (settings : Settings) :
    (Draft.empty.lowerAll settings table waiting).2.WellFormed table.Free := by
  have hLive : ∀ k ∈ waiting, table.LiveReps table.Free k.constraint.vars :=
    fun k hk x hx r c o hRep =>
      (VariableTable.rep_var h.wellFormed (h.waiting_lt hk x hx) hRep).1
  rcases Draft.lowerAll_cases Draft.empty_wellFormed settings waiting h.arity hLive with
    ⟨next, hLower, hEmits⟩ | ⟨k, -, values, next, hLower, hNext, -⟩
  · rw [hLower]
    exact hEmits.wellFormed
  · rw [hLower]
    exact hNext

theorem Recording.Reached.hasAccepted {p : Nat} [Modulus p] [Fact p.Prime] {settings : Settings}
    {recording : Recording p} {table : VariableTable p} (h : Reached settings recording table) :
    recording.settings = settings ∧ ∃ accepted, recording.HasAccepted table accepted := by
  induction h with
  | start =>
      exact ⟨rfl, [], .start ⟨VariableTable.empty_wellFormed,
        fun x hx => absurd hx (Nat.not_lt_zero x)⟩⟩
  | allocPublic prior hPublic value ih =>
      obtain ⟨hSettings, accepted, hAccepted⟩ := ih
      have hTable := hAccepted.recorded.wellFormed
      exact ⟨hSettings, accepted, .grow hAccepted (VariableTable.allocPublic_grows _ value)
        (VariableTable.allocPublic_wellFormed hTable hPublic value)⟩
  | alloc prior value ih =>
      obtain ⟨hSettings, accepted, hAccepted⟩ := ih
      have hTable := hAccepted.recorded.wellFormed
      exact ⟨hSettings, accepted, .grow hAccepted (VariableTable.alloc_grows _ value)
        (VariableTable.alloc_wellFormed hTable value)⟩
  | add prior hVars hAdd ih =>
      obtain ⟨hSettings, accepted, hAccepted⟩ := ih
      rcases hAccepted.add hVars with
        ⟨next, table', hCase, -, hSame, hNext, -⟩ | ⟨stop, next, hCase, hSame, hNext, -⟩
      · cases hAdd.symm.trans hCase
        exact ⟨hSame.trans hSettings, _, hNext⟩
      · cases hAdd.symm.trans hCase
        exact ⟨hSame.trans hSettings, _, hNext⟩

theorem Emission.Proper.ownRow {p : Nat} {live : Nat → Prop} {count : Nat} {emission : Emission p}
    (h : emission.Proper live count) : emission.ownRow.Proper live count := by
  cases emission with
  | half equation => exact List.forall_mem_singleton.mpr h
  | row kind cells coeffs => exact List.forall_mem_singleton.mpr h

namespace Circuit

variable {p : Nat} {circuit : Circuit p} {live : Nat → Prop} {count : Nat}

/-- The signals of a gate are in scope if the registers of its row are. -/
theorem inScope_of_signalOf (hLess : ∀ x, live x → x < circuit.externalCount) {row : Row p}
    (hRow : row.Proper live count) {gate : Gate p}
    (hGate : row.gate circuit.externalCount = .ok gate) {i : Nat} {signal : Signal}
    (hSignal : circuit.signalOf (gate.wire i) = some signal) : signal.InScope live count := by
  rw [Row.gate_eq] at hGate
  obtain ⟨-, -, hRead⟩ := Row.gateOn_eq_ok (hRow.imp hLess).inScope hGate
  rw [hRead, List.getD_eq_getElem?_getD] at hSignal
  apply hRow.inScope
  cases hAt : row.registers[i]? with
  | none => simp [hAt] at hSignal
  | some register =>
      rw [hAt, Option.getD_some] at hSignal
      exact hSignal ▸ List.mem_of_getElem? hAt

/-- A wire number counts variables, and then auxiliary variables. -/
theorem toNat_le_of_signalOf {word : UInt32}
    (h : ∀ k, circuit.signalOf word = some (.aux k) → k < circuit.aux.length) :
    word.toNat ≤ circuit.variableCount := by
  rw [signalOf] at h
  rw [variableCount]
  split_ifs at h with hZero hVar
  · simp [hZero]
  · omega
  · have := h _ rfl
    omega

variable [Modulus p]

/-- The gate of a public input has one wire. -/
theorem publicGate_eq {externals i : Nat} {gate : Gate p}
    (h : Row.publicGate externals i = .ok gate) :
    gate.kind = .generic ∧ gate.coeffs = [1, 0, 0, 0, 0] ∧ (gate.wire 0).toNat = i + 1 ∧
      ∀ j ≥ 1, gate.wire j = 0 := by
  obtain ⟨wires, hWires, hArity, rfl⟩ := Row.gateOn_eq_ok_iff.mp h
  have hWire := Gate.wire_padWires .generic (Row.wires_le_of_checkArity hArity)
    (Arithmetic.coeffs (p := p) .publicInput).toList
  cases hWires with
  | cons hFirst hRest =>
      cases hRest
      refine ⟨rfl, rfl, ?_, fun j hj => ?_⟩
      · rw [hWire]
        exact Signal.fit_eq_ok hFirst
      · rw [hWire]
        obtain ⟨j, rfl⟩ := Nat.exists_eq_add_of_le' hj
        rfl

theorem publicGate_signalOf {index : Nat} (hIndex : index < circuit.externalCount) {gate : Gate p}
    (hGate : Row.publicGate circuit.externalCount index = .ok gate) {i : Nat} {signal : Signal}
    (hSignal : circuit.signalOf (gate.wire i) = some signal) : signal = .var index := by
  have hScope : ∀ s, some s ∈ [some (Signal.var index)] →
      s.InScope (· < circuit.externalCount) 0 := by
    intro s hs
    obtain rfl : s = .var index := by simpa using hs
    exact hIndex
  obtain ⟨-, -, hRead⟩ := Row.gateOn_eq_ok hScope hGate
  rw [hRead] at hSignal
  cases i with
  | zero => exact (Option.some.inj hSignal).symm
  | succ i => cases hSignal

omit [Modulus p] in
theorem signalValue_congr {witness witness' : Witness p} {signal : Signal}
    (h : ∀ x, signal = .var x → witness.get x = witness'.get x) (aux : Array (Residue p)) :
    signalValue witness aux signal = signalValue witness' aux signal := by
  cases signal with
  | var index => rw [signalValue, signalValue, h index rfl]
  | aux index => rfl

namespace Realizes

variable {settings : Settings} {table : VariableTable p} {waiting : List (Assertion p)}
  {draft : Draft p}

/-- Taken apart, the gates after those of the public inputs are those of everything that was
emitted, one by one and in order. -/
theorem emitted_gates (h : circuit.Realizes settings table waiting draft) :
    List.Forall₂ (fun emission gate => emission.ownRow.gate circuit.externalCount = .ok gate)
      draft.emitted.toList ((circuit.gates.drop circuit.publicCount).flatMap Gate.split) := by
  have hDistinct := Draft.lowerAll_distinct (by simp [Draft.empty]) h.lowered
  have hRows : ∀ row ∈ (Layout.ofEmissions settings.batchHalves draft.emitted.toList).allRows,
      ∀ emission ∈ row.emissions, emission.Distinct := by
    intro row hRow emission hMem
    apply hDistinct
    rw [← Layout.ofEmissions_emissions settings.batchHalves draft.emitted.toList]
    exact List.mem_flatMap.mpr ⟨row, hRow, hMem⟩
  have hApart := Row.gates_apart hRows h.rows
  rw [Layout.allRows_apart, Layout.allRows_of_unshared, List.forall₂_map_left_iff] at hApart
  exact hApart

variable [Fact p.Prime] {accepted : List (Assertion p)}

/-- What a recording is lowered to mentions free variables only. -/
theorem draft_wellFormed (h : circuit.Realizes settings table waiting draft)
    (hRecorded : Recorded accepted waiting table) : draft.WellFormed table.Free := by
  have hDraft := hRecorded.lowerAll_wellFormed settings
  rw [h.lowered] at hDraft
  exact hDraft

omit [Fact p.Prime] in
/-- Every gate is over free variables and auxiliary ones. -/
theorem gates_inScope (h : circuit.Realizes settings table waiting draft)
    (hTable : table.WellFormed) (hDraft : draft.WellFormed table.Free) {gate : Gate p}
    (hGate : gate ∈ circuit.gates) {i : Nat} {signal : Signal}
    (hSignal : circuit.signalOf (gate.wire i) = some signal) :
    signal.InScope table.Free circuit.aux.length := by
  have hLess (x : Nat) (hx : table.Free x) : x < circuit.externalCount :=
    h.externalCount ▸ hx.lt_size hTable
  rw [← List.take_append_drop circuit.publicCount circuit.gates] at hGate
  rcases List.mem_append.mp hGate with hPublic | hRow
  · obtain ⟨index, hIndex, hGate⟩ := Traversal.exists_of_mem_right h.exposed hPublic
    have hFree : table.Free index :=
      hTable.public_free index (h.publicCount ▸ List.mem_range.mp hIndex)
    rw [publicGate_signalOf (hLess index hFree) hGate hSignal]
    exact hFree
  · obtain ⟨row, hRow, hGate⟩ := Traversal.exists_of_mem_right h.rows hRow
    have hProper := Recording.layout_proper hDraft (fun _ => id) settings.batchHalves row hRow
    rw [h.aux, Array.length_toList]
    exact inScope_of_signalOf hLess hProper hGate hSignal

omit [Fact p.Prime] in
/-- The index of definitions keeps them apart. -/
theorem aux_nodup (h : circuit.Realizes settings table waiting draft) {live : Nat → Prop}
    (hDraft : draft.WellFormed live) : circuit.aux.Nodup := by
  rw [h.aux, List.nodup_iff_getElem?_ne_getElem?]
  intro i j hOrder hj hSame
  have hSecond : draft.aux.toList[j]? = some draft.aux.toList[j] := List.getElem?_eq_getElem hj
  have hFirst := hSame.trans hSecond
  rw [Array.getElem?_toList, ← hDraft.known] at hFirst hSecond
  obtain rfl := Option.some.inj (hFirst.symm.trans hSecond)
  exact Nat.lt_irrefl _ hOrder

omit [Fact p.Prime] in
/-- The first gate that mentions an auxiliary variable defines it. -/
theorem first_mention (h : circuit.Realizes settings table waiting draft)
    (hTable : table.WellFormed) (hDraft : draft.WellFormed table.Free) {k : Nat} {d : AuxDef p}
    (hDef : circuit.aux[k]? = some d) :
    ∃ before gate after, circuit.gates.flatMap Gate.split = before ++ gate :: after ∧
      gate.Defines circuit k d ∧
      ∀ other ∈ before, ∀ i, circuit.signalOf (other.wire i) ≠ some (.aux k) := by
  have hLess (x : Nat) (hx : table.Free x) : x < circuit.externalCount :=
    h.externalCount ▸ hx.lt_size hTable
  rw [h.aux, Array.getElem?_toList] at hDef
  obtain ⟨earlier, later, hEmitted, hEarlier⟩ := hDraft.defined k d hDef
  have hGates := h.emitted_gates
  rw [hEmitted] at hGates
  have hBefore := (List.forall₂_take_append _ _ _ hGates.flip).flip
  have hAfter := (List.forall₂_drop_append _ _ _ hGates.flip).flip
  obtain ⟨gate, after, hGate, -, hRest⟩ := List.forall₂_cons_left_iff.mp hAfter
  refine ⟨circuit.gates.take circuit.publicCount ++
    ((circuit.gates.drop circuit.publicCount).flatMap Gate.split).take earlier.length, gate, after,
    ?_, ?_, fun other hOther i hMentions => ?_⟩
  · have hSplit := Row.publicGates_split h.exposed
    rw [List.append_assoc, ← hRest, List.take_append_drop]
    nth_rewrite 1 [← List.take_append_drop circuit.publicCount circuit.gates]
    rw [List.flatMap_append, hSplit]
  · have hProper := (Draft.defining_proper (hDraft.earlier k d hDef)).ownRow
    obtain ⟨hKind, hCoeffs, hRead⟩ := Row.gateOn_eq_ok (hProper.imp hLess).inScope hGate
    refine ⟨hKind, hCoeffs, hRead 0, hRead 1, hRead 2, fun i hi => ?_⟩
    rw [hRead, List.getD_eq_getElem?_getD, List.getElem?_eq_none hi, Option.getD_none]
  · rcases List.mem_append.mp hOther with hPublic | hEmitted
    · obtain ⟨index, hIndex, hGate⟩ := Traversal.exists_of_mem_right h.exposed hPublic
      have hFree : table.Free index :=
        hTable.public_free index (h.publicCount ▸ List.mem_range.mp hIndex)
      cases publicGate_signalOf (hLess index hFree) hGate hMentions
    · obtain ⟨emission, hMem, hGate⟩ := Traversal.exists_of_mem_right hBefore hEmitted
      exact Nat.lt_irrefl k
        (inScope_of_signalOf hLess (hEarlier emission hMem).ownRow hGate hMentions)

end Realizes

omit [Modulus p] in
/-- The values of auxiliary variables depend on the variables in their definitions. -/
theorem auxValues_congr {witness witness' : Witness p} {definitions : List (AuxDef p)}
    (h : ∀ d ∈ definitions, ∀ term ∈ d.terms, ∀ x, term.2 = .var x →
      witness.get x = witness'.get x) (aux : Array (Residue p)) :
    auxValues witness aux definitions = auxValues witness' aux definitions := by
  have hTerms (aux : Array (Residue p)) (terms : List (Residue p × Signal))
      (hVars : ∀ term ∈ terms, ∀ x, term.2 = .var x → witness.get x = witness'.get x)
      (sum : Residue p) :
      termsValue witness aux sum terms = termsValue witness' aux sum terms := by
    induction terms generalizing sum with
    | nil => rfl
    | cons term rest ih =>
        obtain ⟨hFirst, hRest⟩ := List.forall_mem_cons.mp hVars
        rw [termsValue, termsValue, signalValue_congr hFirst]
        simp only [ih hRest]
  induction definitions generalizing aux with
  | nil => rfl
  | cons d rest ih =>
      obtain ⟨hFirst, hRest⟩ := List.forall_mem_cons.mp h
      rw [auxValues, auxValues, hTerms aux d.terms hFirst]
      simp only [ih hRest]

/-- The rows depend on the variables that gates and definitions mention. -/
theorem assign_congr {witness witness' : Witness p}
    (hAux : ∀ d ∈ circuit.aux, ∀ term ∈ d.terms, ∀ x, term.2 = .var x →
      witness.get x = witness'.get x)
    (hGates : ∀ gate ∈ circuit.gates, ∀ i x, circuit.signalOf (gate.wire i) = some (.var x) →
      witness.get x = witness'.get x) :
    circuit.assign witness = circuit.assign witness' := by
  rw [assign, assign, auxValues_congr hAux]
  congr 1
  funext aux
  apply Traversal.mapM_congr
  intro gate hGate
  apply Traversal.vector_mapM_congr
  intro word hWord
  obtain ⟨i, hWire⟩ := Gate.exists_wire hWord
  rw [cellValue, cellValue]
  cases hSignal : circuit.signalOf word with
  | none => rfl
  | some signal =>
      apply signalValue_congr
      rintro x rfl
      exact hGates gate hGate i x (hWire ▸ hSignal)

end Circuit

/-- Gates mention only live variables. After any run of allocations and recorded assertions over
allocated variables, a finished circuit is over representatives and well-founded auxiliary
variables, so its rows depend only on the values of representatives. -/
theorem Recording.finalize_wellFounded {p : Nat} [Modulus p] [Fact p.Prime] {settings : Settings}
    {recording : Recording p} {table final : VariableTable p} {circuit : Circuit p}
    (hRun : Reached settings recording table)
    (hFinalize : recording.finalize table = (.ok circuit, final)) :
    circuit.publicCount = table.publicCount ∧ circuit.WellFounded final ∧
      ∀ witness witness' : Witness p,
        (∀ x, final.IsRepresentative x → witness.get x = witness'.get x) →
        circuit.assign witness = circuit.assign witness' := by
  obtain ⟨-, accepted, hAccepted⟩ := hRun.hasAccepted
  obtain ⟨-, waiting, draft, hRecords, hPublic, hRealizes, -, -⟩ := hAccepted.realizes hFinalize
  have hTable := hRecords.recorded.wellFormed
  have hDraft := hRealizes.draft_wellFormed hRecords.recorded
  have hLive {signal : Signal} {count : Nat} (h : signal.InScope final.Free count) :=
    h.imp fun x hx => hx.isRepresentative hTable
  have hEarlier (k : Nat) (d : AuxDef p) (hDef : circuit.aux[k]? = some d) :
      d.terms.length ≤ 2 ∧ ∀ term ∈ d.terms, term.2.InScope final.IsRepresentative k := by
    rw [hRealizes.aux, Array.getElem?_toList] at hDef
    exact ⟨hDraft.short k d hDef, fun term hTerm => hLive (hDraft.earlier k d hDef term hTerm)⟩
  have hGates {gate : Gate p} (hGate : gate ∈ circuit.gates) {i : Nat} {signal : Signal}
      (hSignal : circuit.signalOf (gate.wire i) = some signal) :=
    hLive (hRealizes.gates_inScope hTable hDraft hGate hSignal)
  refine ⟨hRealizes.publicCount.trans hPublic, ⟨?_, ?_, ?_, ?_, hEarlier, ?_, ?_⟩, ?_⟩
  · intro i hi
    have hIndex : (List.range circuit.publicCount)[i]? = some i := by simp [hi]
    obtain ⟨gate, hGate, hExposed⟩ :=
      Traversal.getElem?_of_forall₂ hRealizes.exposed.flip hIndex
    rw [List.getElem?_take_of_lt hi] at hGate
    exact ⟨gate, hGate, Circuit.publicGate_eq hExposed⟩
  · intro i hi
    exact (hTable.public_free i (hRealizes.publicCount ▸ hi)).isRepresentative hTable
  · intro gate hGate i x hSignal
    exact hGates hGate hSignal
  · intro gate hGate i
    apply Circuit.toNat_le_of_signalOf
    intro k hSignal
    exact hGates hGate hSignal
  · exact hRealizes.aux_nodup hDraft
  · intro k d hDef
    exact hRealizes.first_mention hTable hDraft hDef
  · intro witness witness' hSame
    apply Circuit.assign_congr
    · intro d hd term hTerm x hx
      obtain ⟨k, hDef⟩ := List.mem_iff_getElem?.mp hd
      have hScope := (hEarlier k d hDef).2 term hTerm
      rw [hx] at hScope
      exact hSame x hScope
    · intro gate hGate i x hSignal
      exact hSame x (hGates hGate hSignal)

/-- A product of a sum, one of whose variables is bound to the public input. -/
theorem Recording.finalize_wellFounded_sum :
    let table : VariableTable 7 := .allocated [none] [none, none]
    let first : Assertion 7 := ⟨none, .equal (.var 1) (.add (.var 0) 1)⟩
    let second : Assertion 7 := ⟨none, .product (.add (.var 1) (.var 2)) (.var 2) (.var 0)⟩
    let bound := (start Settings.standard).add table first
    let recorded := bound.2.1.add bound.2.2 second
    ∃ circuit, (recorded.2.1.finalize recorded.2.2).1 = .ok circuit ∧
      circuit.aux = [⟨[(1, .var 0), (1, .var 2)], 0⟩] ∧
      circuit.WellFounded (recorded.2.1.finalize recorded.2.2).2 := by
  intro table first second bound recorded
  have : Fact (Nat.Prime 7) := ⟨by decide⟩
  have hTable : Reached Settings.standard (start Settings.standard) table :=
    .alloc (.alloc (.allocPublic .start rfl none) none) none
  have hFirst : ∀ x ∈ first.constraint.vars, x < table.size := by decide
  have hSecond : ∀ x ∈ second.constraint.vars, x < bound.2.2.size := by decide +kernel
  have hRun : Reached Settings.standard recorded.2.1 recorded.2.2 :=
    .add (.add hTable hFirst rfl) hSecond rfl
  have hAux : (recorded.2.1.finalize recorded.2.2).1.toOption.map (·.aux) =
      some [⟨[(1, .var 0), (1, .var 2)], 0⟩] := by decide +kernel
  rcases hFinalize : recorded.2.1.finalize recorded.2.2 with ⟨stop | circuit, final⟩
  · rw [hFinalize] at hAux
    cases hAux
  · rw [hFinalize] at hAux
    exact ⟨circuit, rfl, Option.some.inj hAux, (finalize_wellFounded hRun hFinalize).2.1⟩

end ArithCircuit
