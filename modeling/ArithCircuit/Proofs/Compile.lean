import ArithCircuit.Circuit.Compile
import ArithCircuit.Proofs.Lowering.Emit
import ArithCircuit.Proofs.Lowering.Rows
import ArithCircuit.Proofs.Recording

/-! Finished circuits. A circuit realizes the draft that its recording was lowered to, and its
generic gates compute zero exactly where everything in the draft holds. Finishing a recording fails
only if the accepted assertions have no common solution, or if there are too many wires. -/
namespace ArithCircuit

/-- The circuit is made from the draft to which assertions are lowered: its gates are those of its
public inputs, and then those of the rows in which everything emitted is laid out. -/
structure Circuit.Realizes {p : Nat} [Modulus p] (circuit : Circuit p) (settings : Settings)
    (table : VariableTable p) (waiting : List (Assertion p)) (draft : Draft p) : Prop where
  lowered : Draft.empty.lowerAll settings table waiting = (.ok (), draft)
  publicCount : circuit.publicCount = table.publicCount
  externalCount : circuit.externalCount = table.size
  aux : circuit.aux = draft.aux.toList
  exposed : List.Forall₂ (fun i gate => Row.publicGate circuit.externalCount i = .ok gate)
    (List.range circuit.publicCount) (circuit.gates.take circuit.publicCount)
  rows : List.Forall₂ (fun row gate => Row.gate circuit.externalCount row = .ok gate)
    (Layout.ofEmissions settings.batchHalves draft.emitted.toList).allRows
    (circuit.gates.drop circuit.publicCount)

namespace Recording

variable {p : Nat} [Modulus p]

/-- What the equations among some assertions say about the values of signals. -/
def EquationsHold (table : VariableTable p) (waiting : List (Assertion p))
    (σ : Signal → Residue p) : Prop :=
  ∀ k ∈ waiting, k.constraint.isAlgebraic = true →
    k.constraint.Holds (table.classValue (σ ∘ .var))

/-- The number of wires needed to lower what waits, over classes that no longer change. -/
def wiresOf (settings : Settings) (table : VariableTable p) (waiting : List (Assertion p)) : Nat :=
  table.size + (Draft.empty.lowerAll settings table waiting).2.aux.size

theorem layout_proper {live live' : Nat → Prop} {draft : Draft p} (h : draft.WellFormed live)
    (hLive : ∀ x, live x → live' x) (batch : Bool) :
    ∀ row ∈ (Layout.ofEmissions batch draft.emitted.toList).allRows,
      row.Proper live' draft.aux.size := by
  intro row hRow emission hEmission
  refine (h.proper emission ?_).imp hLive
  rw [← Layout.ofEmissions_emissions batch draft.emitted.toList]
  exact List.mem_flatMap.mpr ⟨row, hRow, hEmission⟩

theorem publicWord_cases {publicCount limit : Nat} (hLimit : publicCount ≤ limit) :
    (∃ word, Circuit.publicWord publicCount = .ok word) ∨
      ∃ fault, fault.Overflows limit ∧ Circuit.publicWord publicCount = .error fault := by
  rw [Circuit.publicWord]
  split_ifs with hFits
  · exact .inl ⟨_, rfl⟩
  · exact .inr ⟨_, ⟨publicCount, Nat.le_of_not_lt hFits, hLimit, rfl⟩, rfl⟩

/-- Everything that can become of assertions when they are lowered. -/
theorem assemble_cases [Fact p.Prime] {live : Nat → Prop} {table : VariableTable p}
    {waiting : List (Assertion p)} (recording : Recording p) (unified : Nat)
    (hTable : table.WellFormed) (hLess : ∀ x, live x → x < table.size)
    (hArity : ∀ k ∈ waiting, k.constraint.checkArity = .ok ())
    (hLive : ∀ k ∈ waiting, table.LiveReps live k.constraint.vars) :
    (∃ circuit draft, recording.assemble table waiting unified = .ok circuit ∧
      circuit.Realizes recording.settings table waiting draft ∧
      Draft.Emits live (EquationsHold table waiting) .empty draft) ∨
    (∃ k ∈ waiting, (∃ values, recording.assemble table waiting unified =
        .error (k.constraint.refuted k.label values)) ∧
      ∀ u, ¬ k.constraint.Holds (table.classValue u)) ∨
    ∃ fault, recording.assemble table waiting unified = .error fault ∧
      fault.Overflows (wiresOf recording.settings table waiting) := by
  have hPublic := hTable.publicCount_le
  generalize hResult : recording.assemble table waiting unified = result
  unfold assemble at hResult
  rcases Draft.lowerAll_cases Draft.empty_wellFormed recording.settings waiting hArity hLive with
    ⟨draft, hLower, hEmits⟩ | ⟨k, hk, values, draft, hLower, hDraft, hNever⟩
  · rw [wiresOf, hLower]
    simp only [hLower] at hResult
    have hRows := layout_proper hEmits.wellFormed hLess recording.settings.batchHalves
    cases hGates : (Layout.ofEmissions recording.settings.batchHalves draft.emitted.toList).gates
        table.size table.publicCount (.ok ()) with
    | error fault =>
        rw [hGates] at hResult
        rcases Layout.gates_eq_error hRows hPublic hGates with hRefused | hOverflow
        · cases hRefused
        · exact .inr (.inr ⟨fault, hResult.symm, hOverflow⟩)
    | ok gates =>
        rw [hGates] at hResult
        rcases publicWord_cases (hPublic.trans (Nat.le_add_right _ draft.aux.size)) with
          ⟨word, hWord⟩ | ⟨fault, hOverflow, hWord⟩
        · rw [hWord] at hResult
          obtain ⟨-, hExposed, hRows⟩ := Layout.gates_eq_ok hGates
          exact .inl ⟨_, draft, hResult.symm, ⟨hLower, rfl, rfl, rfl, hExposed, hRows⟩, hEmits⟩
        · rw [hWord] at hResult
          exact .inr (.inr ⟨fault, hResult.symm, hOverflow⟩)
  · rw [wiresOf, hLower]
    simp only [hLower] at hResult
    have hRows := layout_proper hDraft hLess recording.settings.batchHalves
    cases hGates : (Layout.ofEmissions recording.settings.batchHalves draft.emitted.toList).gates
        table.size table.publicCount (.error (k.constraint.refuted k.label values)) with
    | ok gates => cases (Layout.gates_eq_ok hGates).1
    | error fault =>
        rw [hGates] at hResult
        rcases Layout.gates_eq_error hRows hPublic hGates with hRefused | hOverflow
        · obtain rfl := Except.error.inj hRefused
          refine .inr (.inl ⟨k, hk, ⟨values, hResult.symm⟩, fun u hHolds => ?_⟩)
          obtain ⟨σ, rfl, hSolves⟩ := hDraft.exists_solves u
          exact hNever σ hSolves hHolds
        · exact .inr (.inr ⟨fault, hResult.symm, hOverflow⟩)

/-- Everything about a circuit is determined by what was lowered and by its gates. -/
theorem assemble_eq_ok_iff {recording : Recording p} {table : VariableTable p}
    {waiting : List (Assertion p)} {unified : Nat} {circuit : Circuit p} :
    recording.assemble table waiting unified = .ok circuit ↔
      ∃ draft exposed body word,
        Draft.empty.lowerAll recording.settings table waiting = (.ok (), draft) ∧
        List.Forall₂ (fun i gate => Row.publicGate table.size i = .ok gate)
          (List.range table.publicCount) exposed ∧
        List.Forall₂ (fun row gate => Row.gate table.size row = .ok gate)
          (Layout.ofEmissions recording.settings.batchHalves draft.emitted.toList).allRows body ∧
        Circuit.publicWord table.publicCount = .ok word ∧
        circuit = ⟨exposed ++ body, table.publicCount, table.size, draft.aux.toList,
          Circuit.digestOf (exposed ++ body) word,
          ⟨recording.recorded, unified, (exposed ++ body).length,
            (Layout.ofEmissions recording.settings.batchHalves draft.emitted.toList).sharedRows,
            draft.aux.size⟩⟩ := by
  constructor
  · intro h
    rcases hLower : Draft.empty.lowerAll recording.settings table waiting with ⟨lowered, draft⟩
    simp only [assemble, hLower] at h
    obtain ⟨gates, hGates, h⟩ := Traversal.exists_of_bind_eq_ok h
    obtain ⟨word, hWord, h⟩ := Traversal.exists_of_bind_eq_ok h
    obtain ⟨rfl, exposed, body, hExposed, hBody, rfl⟩ := Layout.gates_eq_ok_iff.mp hGates
    exact ⟨draft, exposed, body, word, rfl, hExposed, hBody, hWord, (Except.ok.inj h).symm⟩
  · rintro ⟨draft, exposed, body, word, hLower, hExposed, hBody, hWord, rfl⟩
    have hGates := Layout.gates_eq_ok_iff.mpr ⟨rfl, exposed, body, hExposed, hBody, rfl⟩
    simp only [assemble, hLower, hGates, hWord, bind, Except.bind, pure, Except.pure]

/-- A recording is finished once its last round of absorption is, and the rest can be lowered. -/
theorem finalize_eq_ok_iff {recording : Recording p} {table final : VariableTable p}
    {circuit : Circuit p} :
    recording.finalize table = (.ok circuit, final) ↔
      ∃ waiting unified,
        table.absorbAll recording.settings recording.waiting.toList =
          (.ok (waiting, unified), final) ∧
        recording.assemble final waiting (recording.unified + unified) = .ok circuit := by
  rw [finalize]
  constructor
  · intro h
    split at h
    · cases h
    · rename_i waiting unified table hAbsorb
      split at h
      · cases h
      · rename_i built hAssemble
        cases h
        exact ⟨waiting, unified, hAbsorb, hAssemble⟩
  · rintro ⟨waiting, unified, hAbsorb, hAssemble⟩
    simp only [hAbsorb, hAssemble]

/-- The number of wires needed to finish a recording. -/
def wireCount (recording : Recording p) (table : VariableTable p) : Nat :=
  match table.absorbAll recording.settings recording.waiting.toList with
  | (.ok (waiting, _), final) => wiresOf recording.settings final waiting
  | (.error _, _) => 0

end Recording

namespace Recorded

variable {p : Nat} [Modulus p] [Fact p.Prime] {accepted : List (Assertion p)}
  {table : VariableTable p}

/-- What represents the variables of waiting assertions is known if the variables of the accepted
assertions are. -/
theorem liveReps {waiting : List (Assertion p)} (h : Recorded accepted waiting table)
    {known : Nat → Prop} (hKnown : ∀ a ∈ accepted, ∀ x ∈ a.constraint.vars, known x) :
    ∀ k ∈ waiting, table.LiveReps (fun x => x < table.size ∧ known x) k.constraint.vars := by
  intro k hk x hx r c o hRep
  have hFree := (VariableTable.rep_var h.wellFormed (h.waiting_lt hk x hx) hRep).1
  obtain ⟨a, ha, hxa⟩ := h.waiting_vars k hk x hx
  refine ⟨?_, h.closed known hKnown x r c o (hKnown a ha x hxa) hRep⟩
  rw [← h.wellFormed.sized]
  exact (Array.getElem?_eq_some_iff.mp hFree).1

end Recorded

/-- Everything that can become of a recording when it is finished. -/
theorem Recording.HasAccepted.finalize_cases {p : Nat} [Modulus p] [Fact p.Prime]
    {accepted : List (Assertion p)} {table : VariableTable p} {recording : Recording p}
    (h : recording.HasAccepted table accepted) (known : Nat → Prop)
    (hKnown : ∀ a ∈ accepted, ∀ x ∈ a.constraint.vars, known x) :
    (∃ circuit final waiting draft, recording.finalize table = (.ok circuit, final) ∧
      Records recording.settings accepted waiting final ∧ final.values = table.values ∧
      final.publicCount = table.publicCount ∧
      circuit.Realizes recording.settings final waiting draft ∧
      Draft.Emits (fun x => x < final.size ∧ known x) (Recording.EquationsHold final waiting)
        .empty draft) ∨
    (∃ label statement values final,
      recording.finalize table = (.error (.fault (.unsatisfied label statement values)), final) ∧
      ∀ w, ¬ ∀ a ∈ accepted, a.constraint.Holds w) ∨
    ∃ fault final, recording.finalize table = (.error (.fault fault), final) ∧
      fault.Overflows (recording.wireCount table) := by
  rw [Recording.wireCount]
  have hStart : Records recording.settings accepted ([] ++ recording.waiting.toList) table := h
  rcases hStart.absorbAll with
    ⟨waiting, unified, final, hAbsorb, hFinal, hValues, hPublic⟩ |
    ⟨label, statement, final, hAbsorb, hNever⟩
  · rw [List.nil_append] at hFinal
    have hSame := hFinal.recorded
    rcases Recording.assemble_cases recording (recording.unified + unified) hSame.wellFormed
      (fun _ => And.left) hSame.arity (hSame.liveReps hKnown) with
      ⟨circuit, draft, hAssemble, hRealizes, hEmits⟩ | ⟨k, hk, ⟨values, hAssemble⟩, hNever⟩ |
      ⟨fault, hAssemble, hOverflow⟩
    · refine .inl ⟨circuit, final, waiting, draft, ?_, hFinal, hValues, hPublic, hRealizes, hEmits⟩
      simp only [Recording.finalize, hAbsorb, hAssemble]
    · refine .inr (.inl ⟨k.label, k.constraint.text, values.map Residue.signed, final, ?_,
        fun w hAll => ?_⟩)
      · simp only [Recording.finalize, hAbsorb, hAssemble]
        rfl
      · obtain ⟨hw, hWaiting⟩ := hSame.complete w hAll
        refine hNever w ?_
        rw [hw.classValue_eq]
        exact hWaiting k hk
    · refine .inr (.inr ⟨fault, final, ?_, ?_⟩)
      · simp only [Recording.finalize, hAbsorb, hAssemble]
      · simpa only [hAbsorb] using hOverflow
  · exact .inr (.inl ⟨label, statement, [], final, by simp only [Recording.finalize, hAbsorb],
      hNever⟩)

/-- A circuit comes from a recording that has been lowered to its rows. -/
theorem Recording.HasAccepted.realizes {p : Nat} [Modulus p] [Fact p.Prime]
    {accepted : List (Assertion p)} {table final : VariableTable p} {recording : Recording p}
    {circuit : Circuit p} (h : recording.HasAccepted table accepted)
    (hFinal : recording.finalize table = (.ok circuit, final)) :
    ∃ live waiting draft, Records recording.settings accepted waiting final ∧
      final.publicCount = table.publicCount ∧
      circuit.Realizes recording.settings final waiting draft ∧
      (∀ x, live x → x < final.size) ∧
      Draft.Emits live (Recording.EquationsHold final waiting) .empty draft := by
  rcases h.finalize_cases (fun _ => True) (by simp) with
    ⟨circuit', final', waiting, draft, hResult, hRecords, -, hPublic, hRealizes, hEmits⟩ |
    ⟨label, statement, values, final', hResult, -⟩ | ⟨fault, final', hResult, -⟩
  · obtain ⟨rfl, rfl⟩ : circuit' = circuit ∧ final' = final := by
      simpa using hResult.symm.trans hFinal
    exact ⟨_, waiting, draft, hRecords, hPublic, hRealizes, fun _ => And.left, hEmits⟩
  · cases hFinal.symm.trans hResult
  · cases hFinal.symm.trans hResult

namespace Circuit.Realizes

variable {p : Nat} [Modulus p] {circuit : Circuit p} {settings : Settings}
  {table : VariableTable p} {waiting : List (Assertion p)} {draft : Draft p} {live : Nat → Prop}

theorem rows_proper (h : circuit.Realizes settings table waiting draft)
    (hDraft : draft.WellFormed live) (hLess : ∀ x, live x → x < table.size) :
    ∀ row ∈ (Layout.ofEmissions settings.batchHalves draft.emitted.toList).allRows,
      row.Proper (fun x => live x ∧ x < circuit.externalCount) draft.aux.size := by
  rw [h.externalCount]
  exact Recording.layout_proper hDraft (fun x hx => ⟨hx, hLess x hx⟩) settings.batchHalves

/-- The generic gates after those of the public inputs compute zero exactly where everything in the
draft holds. -/
theorem computes_zero_iff (h : circuit.Realizes settings table waiting draft)
    (hDraft : draft.WellFormed live) (hLess : ∀ x, live x → x < table.size)
    (σ : Signal → Residue p) :
    (∀ gate ∈ circuit.gates.drop circuit.publicCount, gate.kind = .generic →
        gate.Computes (circuit.onWires σ) 0) ↔
      ∀ emission ∈ draft.emitted.toList, emission.Holds σ := by
  have hGates := h.rows
  have hProper := h.rows_proper hDraft hLess
  rw [← Layout.ofEmissions_emissions settings.batchHalves draft.emitted.toList, Layout.emissions]
  generalize circuit.gates.drop circuit.publicCount = gates at hGates
  generalize (Layout.ofEmissions settings.batchHalves draft.emitted.toList).allRows = rows
    at hGates hProper
  induction hGates with
  | nil => simp
  | cons hGate _ ih =>
      have hTail := ih fun row hRow => hProper row (List.mem_cons_of_mem _ hRow)
      have hRow := (hProper _ List.mem_cons_self).imp fun _ => And.right
      rw [List.forall_mem_cons, List.flatMap_cons, List.forall_mem_append]
      exact and_congr (Row.computes_zero_iff hRow hGate σ) hTail

theorem gates_length (h : circuit.Realizes settings table waiting draft) :
    circuit.gates.length = table.publicCount +
      (Layout.ofEmissions settings.batchHalves draft.emitted.toList).allRows.length := by
  have hExposed := h.exposed.length_eq
  rw [List.length_range] at hExposed
  calc
    circuit.gates.length = (circuit.gates.take circuit.publicCount).length +
        (circuit.gates.drop circuit.publicCount).length := by
      rw [← List.length_append, List.take_append_drop]
    _ = _ := by rw [← hExposed, ← h.rows.length_eq, h.publicCount]

end Circuit.Realizes

end ArithCircuit
