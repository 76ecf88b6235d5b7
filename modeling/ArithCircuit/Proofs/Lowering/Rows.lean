import ArithCircuit.Circuit.Witness
import ArithCircuit.Proofs.Lowering.Draft
import ArithCircuit.Proofs.Traversal

/-! Rows and gates. The layout keeps everything that was emitted in its order, with or without
sharing of rows. The wires of a gate can be read back, so a generic gate computes zero exactly where
the halves of its row hold. -/
namespace ArithCircuit

namespace Row

variable {p : Nat}

/-- What was emitted to fill the row. -/
def emissions : Row p → List (Emission p)
  | .single half => [.half half]
  | .double first second => [.half first, .half second]
  | .other kind cells coeffs => [.row kind cells coeffs]

/-- The registers of a row, from the first on. -/
def registers : Row p → List (Option Signal)
  | .single half => half.registers
  | .double first second => first.registers ++ second.registers
  | .other _ cells _ => cells.map some

def kind : Row p → GateKind
  | .other kind _ _ => kind
  | _ => .generic

def coeffs : Row p → List (Residue p)
  | .single half => half.coeffs.toList
  | .double first second => first.coeffs.toList ++ second.coeffs.toList
  | .other _ _ coeffs => coeffs

/-- The gate of a row is made from its registers. -/
theorem gate_eq (externals : Nat) (row : Row p) :
    row.gate externals = gateOn externals row.kind row.registers row.coeffs := by
  cases row <;> rfl

end Row

namespace Layout

variable {p : Nat}

/-- All rows: the complete ones and the one of the half that waits. -/
def allRows (layout : Layout p) : List (Row p) :=
  layout.rows.toList ++ layout.pending.toList.map .single

/-- What has been laid out. -/
def emissions (layout : Layout p) : List (Emission p) := layout.allRows.flatMap Row.emissions

/-- Placing comes after all that was laid out before. Without sharing no half ever waits. -/
theorem place_emissions {batch : Bool} {layout : Layout p} (emission : Emission p)
    (h : batch = true ∨ layout.pending = none) :
    (layout.place batch emission).emissions = layout.emissions ++ [emission] ∧
      (batch = true ∨ (layout.place batch emission).pending = none) := by
  obtain ⟨rows, pending⟩ := layout
  cases emission with
  | half half =>
      cases batch with
      | true =>
          cases pending <;> simp [place, emissions, allRows, Row.emissions]
      | false =>
          obtain rfl : pending = none := by simpa using h
          simp [place, emissions, allRows, Row.emissions]
  | row kind cells coeffs =>
      cases pending <;> simp [place, flush, emissions, allRows, Row.emissions]

/-- The layout holds exactly what was emitted, in order. -/
theorem ofEmissions_emissions (batch : Bool) (emitted : List (Emission p)) :
    (ofEmissions batch emitted).emissions = emitted := by
  have hFold (layout : Layout p) (h : batch = true ∨ layout.pending = none) :
      (emitted.foldl (place batch) layout).emissions = layout.emissions ++ emitted := by
    induction emitted generalizing layout with
    | nil => simp
    | cons emission rest ih =>
        obtain ⟨hNext, hPending⟩ := place_emissions emission h
        rw [List.foldl_cons, ih _ hPending, hNext, List.append_assoc, List.singleton_append]
  exact hFold empty (.inr rfl)

end Layout

namespace Gate

variable {p : Nat} [Modulus p]

/-- The wire of a register; a row has no registers beyond its width. -/
def wire (gate : Gate p) (register : Nat) : UInt32 := gate.wires[register]?.getD 0

omit [Modulus p] in
theorem exists_wire {gate : Gate p} {word : UInt32} (h : word ∈ gate.wires.toList) :
    ∃ register, gate.wire register = word := by
  obtain ⟨register, hAt⟩ := List.mem_iff_getElem?.mp h
  refine ⟨register, ?_⟩
  rw [wire, ← Vector.getElem?_toList, hAt, Option.getD_some]

/-- Every half of the gate computes the input from the values on its wires. -/
def Computes (value : UInt32 → Residue p) (input : Residue p) (gate : Gate p) : Prop :=
  ∀ (i : Nat) (k : HalfCoeffs p), (Circuit.halvesOf gate.coeffs)[i]? = some k →
    k.residual (value (gate.wire (3 * i))) (value (gate.wire (3 * i + 1)))
      (value (gate.wire (3 * i + 2))) = input

instance (value : UInt32 → Residue p) (input : Residue p) (gate : Gate p) :
    Decidable (gate.Computes value input) :=
  decidable_of_iff
    (∀ i < (Circuit.halvesOf gate.coeffs).length, ∀ k ∈ (Circuit.halvesOf gate.coeffs)[i]?,
      k.residual (value (gate.wire (3 * i))) (value (gate.wire (3 * i + 1)))
        (value (gate.wire (3 * i + 2))) = input)
    ⟨fun h i k hk => h i (List.getElem?_eq_some_iff.mp hk).1 k hk, fun h i _ k hk => h i k hk⟩

omit [Modulus p] in
/-- A property of all halves, half by half. -/
theorem forall_half_cons_iff {k : HalfCoeffs p} {rest : List (HalfCoeffs p)}
    {property : Nat → HalfCoeffs p → Prop} :
    (∀ (i : Nat) (k' : HalfCoeffs p), (k :: rest)[i]? = some k' → property i k') ↔
      property 0 k ∧ ∀ (i : Nat) (k' : HalfCoeffs p), rest[i]? = some k' → property (i + 1) k' := by
  constructor
  · exact fun h => ⟨h 0 k rfl, fun i k' hk' => h (i + 1) k' hk'⟩
  · rintro ⟨hFirst, hRest⟩ i k' hk'
    cases i with
    | zero =>
        obtain rfl := Option.some.inj hk'
        exact hFirst
    | succ i => exact hRest i k' hk'

omit [Modulus p] in
theorem wire_padWires (kind : GateKind) {wires : List UInt32} (hWires : wires.length ≤ rowWidth)
    (coeffs : List (Residue p)) (register : Nat) :
    (⟨kind, padWires wires, coeffs⟩ : Gate p).wire register = wires.getD register 0 := by
  simp only [wire, padWires]
  by_cases hRegister : register < rowWidth
  · simp [hRegister]
  · have hBeyond : wires.length ≤ register := hWires.trans (Nat.le_of_not_lt hRegister)
    simp [hRegister, List.getElem?_eq_none hBeyond]

end Gate

/-- The fault of a wire number that needs more than 32 bits, and is at most `limit`. -/
def Fault.Overflows (limit : Nat) (fault : Fault) : Prop :=
  ∃ number, 2 ^ 32 ≤ number ∧ number ≤ limit ∧ fault = .wireOverflow number

namespace Signal

variable {externals count : Nat} {signal : Option Signal}

theorem fit_cases {number limit : Nat} (hLimit : number ≤ limit) :
    (∃ word, wire.fit number = .ok word) ∨
      ∃ fault, fault.Overflows limit ∧ wire.fit number = .error fault := by
  rw [wire.fit]
  split_ifs with hFits
  · exact .inl ⟨_, rfl⟩
  · exact .inr ⟨_, ⟨number, Nat.le_of_not_lt hFits, hLimit, rfl⟩, rfl⟩

/-- A signal in scope has a wire, unless there are too many. -/
theorem wire_cases (hScope : ∀ s, signal = some s → s.InScope (· < externals) count) :
    (∃ word, wire externals signal = .ok word) ∨
      ∃ fault, fault.Overflows (externals + count) ∧ wire externals signal = .error fault := by
  match signal, hScope with
  | none, _ => exact .inl ⟨0, rfl⟩
  | some (.var index), hScope =>
      have hIndex : index < externals := hScope _ rfl
      exact fit_cases (by omega)
  | some (.aux index), hScope =>
      have hIndex : index < count := hScope _ rfl
      exact fit_cases (by omega)

theorem fit_eq_ok {number : Nat} {word : UInt32} (h : wire.fit number = .ok word) :
    word.toNat = number := by
  rw [wire.fit] at h
  split_ifs at h with hFits
  obtain rfl := Except.ok.inj h
  exact UInt32.toNat_ofNat_of_lt' hFits

/-- Wires can be read back as the signals that they stand for. -/
theorem signalOf_wire {p : Nat} {circuit : Circuit p} {word : UInt32}
    (hScope : ∀ s, signal = some s → s.InScope (· < circuit.externalCount) count)
    (h : wire circuit.externalCount signal = .ok word) : circuit.signalOf word = signal := by
  match signal, hScope with
  | none, _ =>
      obtain rfl := Except.ok.inj h
      rfl
  | some (.var index), hScope =>
      have hIndex : index < circuit.externalCount := hScope _ rfl
      have hWord := fit_eq_ok h
      have hUsed : word ≠ 0 := by
        rintro rfl
        cases hWord
      rw [Circuit.signalOf, if_neg hUsed, hWord, Nat.add_sub_cancel, if_pos hIndex]
  | some (.aux index), _ =>
      have hWord := fit_eq_ok h
      have hUsed : word ≠ 0 := by
        rintro rfl
        cases hWord
      rw [Circuit.signalOf, if_neg hUsed, hWord, Nat.add_sub_cancel, if_neg (by omega),
        Nat.add_sub_cancel_left]

end Signal

/-- The values on the wires of a circuit, from those of its signals. -/
def Circuit.onWires {p : Nat} [Modulus p] (circuit : Circuit p) (σ : Signal → Residue p)
    (wire : UInt32) : Residue p :=
  Signal.register σ (circuit.signalOf wire)

namespace Row

variable {p : Nat} {live : Nat → Prop} {externals count : Nat} {kind : GateKind}
  {registers : List (Option Signal)} {coeffs : List (Residue p)} {gate : Gate p}

/-- A gate exists over registers in scope that fit its kind, unless there are too many wires. -/
theorem gateOn_cases
    (hScope : ∀ s, some s ∈ registers → s.InScope (· < externals) count)
    (hArity : kind.checkArity registers.length coeffs.length = .ok ()) :
    (∃ gate, gateOn externals kind registers coeffs = .ok gate) ∨
      ∃ fault, fault.Overflows (externals + count) ∧
        gateOn externals kind registers coeffs = .error fault := by
  cases hWires : registers.mapM (Signal.wire externals) with
  | ok wires =>
      have hLength := (Traversal.mapM_eq_ok_iff.mp hWires).length_eq
      refine .inl ⟨⟨kind, Gate.padWires wires, coeffs⟩, ?_⟩
      rw [gateOn, hWires]
      simp only [Gate.ofWires, ← hLength, hArity]
  | error fault =>
      obtain ⟨signal, hMem, hFault⟩ := Traversal.exists_of_mapM_eq_error hWires
      refine .inr ⟨fault, ?_, by rw [gateOn, hWires]⟩
      rcases Signal.wire_cases (fun s hs => hScope s (hs ▸ hMem)) with ⟨word, hWord⟩ |
        ⟨fault', hOverflow, hFault'⟩
      · rw [hWord] at hFault
        cases hFault
      · rw [hFault'] at hFault
        exact Except.error.inj hFault ▸ hOverflow

theorem maxWires_le (kind : GateKind) : kind.maxWires ≤ rowWidth := by
  cases kind <;> decide

theorem signalOf_getD {circuit : Circuit p} {wires : List UInt32}
    (hScope : ∀ s, some s ∈ registers → s.InScope (· < circuit.externalCount) count)
    (hWires : List.Forall₂ (fun signal word =>
      Signal.wire circuit.externalCount signal = .ok word) registers wires) (i : Nat) :
    circuit.signalOf (wires.getD i 0) = registers.getD i none := by
  induction hWires generalizing i with
  | nil => rfl
  | cons hHead _ ih =>
      cases i with
      | zero =>
          exact Signal.signalOf_wire (fun s hs => hScope s (hs ▸ List.mem_cons_self)) hHead
      | succ i => exact ih (fun s hs => hScope s (List.mem_cons_of_mem _ hs)) i

/-- A gate is made from the wires of its registers, if they fit its kind. -/
theorem gateOn_eq_ok_iff : gateOn externals kind registers coeffs = .ok gate ↔
    ∃ wires, List.Forall₂ (fun signal word => Signal.wire externals signal = .ok word)
        registers wires ∧
      kind.checkArity wires.length coeffs.length = .ok () ∧
      gate = ⟨kind, Gate.padWires wires, coeffs⟩ := by
  rw [gateOn]
  constructor
  · intro h
    cases hWires : registers.mapM (Signal.wire externals) with
    | error fault =>
        rw [hWires] at h
        cases h
    | ok wires =>
        rw [hWires] at h
        simp only [Gate.ofWires] at h
        split at h
        · cases h
        · rename_i hArity
          exact ⟨wires, Traversal.mapM_eq_ok_iff.mp hWires, hArity, (Except.ok.inj h).symm⟩
  · rintro ⟨wires, hWires, hArity, rfl⟩
    simp only [Traversal.mapM_eq_ok_iff.mpr hWires, Gate.ofWires, hArity]

theorem wires_le_of_checkArity {wires number : Nat}
    (h : kind.checkArity wires number = .ok ()) : wires ≤ rowWidth := by
  rw [GateKind.checkArity] at h
  split_ifs at h with hTooMany
  have := maxWires_le kind
  omega

/-- The registers of a gate can be read back from its wires. -/
theorem gateOn_eq_ok {circuit : Circuit p}
    (hScope : ∀ s, some s ∈ registers → s.InScope (· < circuit.externalCount) count)
    (h : gateOn circuit.externalCount kind registers coeffs = .ok gate) :
    gate.kind = kind ∧ gate.coeffs = coeffs ∧
      ∀ i, circuit.signalOf (gate.wire i) = registers.getD i none := by
  obtain ⟨wires, hWires, hArity, rfl⟩ := gateOn_eq_ok_iff.mp h
  refine ⟨rfl, rfl, fun i => ?_⟩
  rw [Gate.wire_padWires kind (wires_le_of_checkArity hArity), signalOf_getD hScope hWires]

theorem kind_of_gate {row : Row p} (h : row.gate externals = .ok gate) : gate.kind = row.kind := by
  rw [gate_eq] at h
  obtain ⟨wires, -, -, rfl⟩ := gateOn_eq_ok_iff.mp h
  rfl

/-- Everything that fills the row is proper. -/
def Proper (live : Nat → Prop) (count : Nat) (row : Row p) : Prop :=
  ∀ emission ∈ row.emissions, emission.Proper live count

theorem Proper.imp {live' : Nat → Prop} (hLive : ∀ x, live x → live' x) {row : Row p}
    (h : row.Proper live count) : row.Proper live' count :=
  fun emission hEmission => (h emission hEmission).imp hLive

theorem Proper.inScope {row : Row p} (h : row.Proper live count) :
    ∀ s, some s ∈ row.registers → s.InScope live count := by
  intro s hs
  cases row with
  | single half => exact h _ List.mem_cons_self s hs
  | double first second =>
      rcases List.mem_append.mp hs with hs | hs
      · exact h (.half first) (by simp [emissions]) s hs
      · exact h (.half second) (by simp [emissions]) s hs
  | other kind cells coeffs =>
      have hCell : s ∈ cells := by simpa [registers] using hs
      exact (h _ List.mem_cons_self).2.2 s hCell

theorem Proper.arity {row : Row p} (h : row.Proper live count) :
    row.kind.checkArity row.registers.length row.coeffs.length = .ok () := by
  cases row with
  | single half => rfl
  | double first second => rfl
  | other kind cells coeffs =>
      simpa [registers, Row.kind, Row.coeffs] using (h _ List.mem_cons_self).2.1

theorem gate_cases {row : Row p} (h : row.Proper (· < externals) count) :
    (∃ gate, row.gate externals = .ok gate) ∨
      ∃ fault, fault.Overflows (externals + count) ∧ row.gate externals = .error fault := by
  rw [gate_eq]
  exact gateOn_cases h.inScope h.arity

variable [Modulus p]

/-- A generic gate computes zero exactly where the halves of its row hold. -/
theorem computes_zero_iff {circuit : Circuit p} {row : Row p}
    (hRow : row.Proper (· < circuit.externalCount) count)
    (hGate : row.gate circuit.externalCount = .ok gate) (σ : Signal → Residue p) :
    (gate.kind = .generic → gate.Computes (circuit.onWires σ) 0) ↔
      ∀ emission ∈ row.emissions, emission.Holds σ := by
  rw [gate_eq] at hGate
  obtain ⟨hKind, hCoeffs, hRead⟩ := gateOn_eq_ok hRow.inScope hGate
  simp only [Gate.Computes, Circuit.onWires, hKind, hCoeffs, hRead]
  cases row with
  | single half =>
      have hHalves : Circuit.halvesOf (Row.single half).coeffs = [half.coeffs] := rfl
      rw [hHalves]
      simp [Gate.forall_half_cons_iff, Row.kind, Row.registers, Half.registers, emissions,
        Emission.Holds, Half.Holds]
  | double first second =>
      have hHalves : Circuit.halvesOf (Row.double first second).coeffs =
        [first.coeffs, second.coeffs] := rfl
      rw [hHalves]
      simp [Gate.forall_half_cons_iff, Row.kind, Row.registers, Half.registers, emissions,
        Emission.Holds, Half.Holds]
  | other kind cells coeffs =>
      have hOther := (hRow _ List.mem_cons_self).1
      simp [Row.kind, hOther, emissions, Emission.Holds]

/-- The gate of a public input computes the value of its variable. -/
theorem publicGate_computes_iff {circuit : Circuit p} {index : Nat}
    (hIndex : index < circuit.externalCount)
    (hGate : publicGate circuit.externalCount index = .ok gate) (σ : Signal → Residue p)
    (input : Residue p) : gate.kind = .generic ∧
      (gate.Computes (circuit.onWires σ) input ↔
        σ (.var index) = input) := by
  have hScope : ∀ s, some s ∈ [some (Signal.var index)] →
      s.InScope (· < circuit.externalCount) 0 := by
    intro s hs
    obtain rfl : s = .var index := by simpa using hs
    exact hIndex
  obtain ⟨hKind, hCoeffs, hRead⟩ := gateOn_eq_ok hScope hGate
  have hHalves : Circuit.halvesOf (Arithmetic.coeffs (p := p) .publicInput).toList =
    [Arithmetic.coeffs .publicInput] := rfl
  refine ⟨hKind, ?_⟩
  simp only [Gate.Computes, Circuit.onWires, hCoeffs, hRead]
  rw [hHalves]
  simp [Gate.forall_half_cons_iff, Arithmetic.coeffs, HalfCoeffs.residual, Signal.register]

theorem publicGate_cases {index : Nat} (hIndex : index < externals) (count : Nat) :
    (∃ gate : Gate p, publicGate externals index = .ok gate) ∨
      ∃ fault, fault.Overflows (externals + count) ∧
        (publicGate externals index : Except Fault (Gate p)) = .error fault :=
  gateOn_cases (fun s hs => by
    obtain rfl : s = .var index := by simpa using hs
    exact hIndex) rfl

end Row

namespace Layout

variable {p : Nat} [Modulus p] {layout : Layout p} {externals publicCount count : Nat}
  {lowered : Except Fault Unit} {gates : List (Gate p)}

/-- The gates of a circuit are those of its public inputs and then those of its rows. -/
theorem gates_eq_ok (h : layout.gates externals publicCount lowered = .ok gates) :
    lowered = .ok () ∧
      List.Forall₂ (fun i gate => Row.publicGate externals i = .ok gate)
        (List.range publicCount) (gates.take publicCount) ∧
      List.Forall₂ (fun row gate => Row.gate externals row = .ok gate) layout.allRows
        (gates.drop publicCount) := by
  obtain ⟨exposed, hExposed, h⟩ := Traversal.exists_of_bind_eq_ok h
  obtain ⟨complete, hComplete, h⟩ := Traversal.exists_of_bind_eq_ok h
  obtain ⟨_, hLowered, h⟩ := Traversal.exists_of_bind_eq_ok h
  obtain ⟨last, hLast, h⟩ := Traversal.exists_of_bind_eq_ok h
  obtain rfl := Except.ok.inj h
  have hPublic := Traversal.mapM_eq_ok_iff.mp hExposed
  have hLength : publicCount = exposed.length := by simpa using hPublic.length_eq
  rw [List.append_assoc, hLength, List.take_left, List.drop_left, ← hLength]
  exact ⟨hLowered, hPublic, List.rel_append (Traversal.mapM_eq_ok_iff.mp hComplete)
    (Traversal.mapM_eq_ok_iff.mp hLast)⟩

/-- Gates are made exactly when nothing was refused and every public input and row has one. -/
theorem gates_eq_ok_iff : layout.gates externals publicCount lowered = .ok gates ↔
    lowered = .ok () ∧
      ∃ exposed body, List.Forall₂ (fun i gate => Row.publicGate externals i = .ok gate)
          (List.range publicCount) exposed ∧
        List.Forall₂ (fun row gate => Row.gate externals row = .ok gate) layout.allRows body ∧
        gates = exposed ++ body := by
  constructor
  · intro h
    obtain ⟨hLowered, hExposed, hRows⟩ := gates_eq_ok h
    exact ⟨hLowered, _, _, hExposed, hRows, (List.take_append_drop publicCount gates).symm⟩
  · rintro ⟨rfl, exposed, body, hExposed, hRows, rfl⟩
    have hBody := Traversal.mapM_eq_ok_iff.mpr hRows
    rw [allRows, List.mapM_append] at hBody
    obtain ⟨complete, hComplete, hBody⟩ := Traversal.exists_of_bind_eq_ok hBody
    obtain ⟨last, hLast, hBody⟩ := Traversal.exists_of_bind_eq_ok hBody
    obtain rfl := Except.ok.inj hBody
    rw [gates, Traversal.mapM_eq_ok_iff.mpr hExposed]
    simp only [hComplete, hLast, bind, Except.bind, pure, Except.pure, List.append_assoc]

/-- Gates are refused only by the lowering or for too many wires. -/
theorem gates_eq_error (hRows : ∀ row ∈ layout.allRows, row.Proper (· < externals) count)
    (hPublic : publicCount ≤ externals) {fault : Fault}
    (h : layout.gates externals publicCount lowered = .error fault) :
    lowered = .error fault ∨ fault.Overflows (externals + count) := by
  have hRow {rows : List (Row p)} (hSub : ∀ row ∈ rows, row ∈ layout.allRows) {fault : Fault}
      (h : rows.mapM (Row.gate externals) = .error fault) :
      fault.Overflows (externals + count) := by
    obtain ⟨row, hMem, hFault⟩ := Traversal.exists_of_mapM_eq_error h
    rcases Row.gate_cases (hRows row (hSub row hMem)) with ⟨gate, hGate⟩ |
      ⟨fault', hOverflow, hFault'⟩
    · rw [hGate] at hFault
      cases hFault
    · rw [hFault'] at hFault
      exact Except.error.inj hFault ▸ hOverflow
  rcases Traversal.cases_of_bind_eq_error h with hExposed | ⟨exposed, -, h⟩
  · obtain ⟨index, hIndex, hFault⟩ := Traversal.exists_of_mapM_eq_error hExposed
    have hLess : index < externals := (List.mem_range.mp hIndex).trans_le hPublic
    rcases Row.publicGate_cases (p := p) hLess count with ⟨gate, hGate⟩ |
      ⟨fault', hOverflow, hFault'⟩
    · rw [hGate] at hFault
      cases hFault
    · rw [hFault'] at hFault
      exact .inr (Except.error.inj hFault ▸ hOverflow)
  · rcases Traversal.cases_of_bind_eq_error h with hComplete | ⟨complete, -, h⟩
    · exact .inr (hRow (fun row hMem => List.mem_append_left _ hMem) hComplete)
    · rcases Traversal.cases_of_bind_eq_error h with hLowered | ⟨_, -, h⟩
      · exact .inl hLowered
      · rcases Traversal.cases_of_bind_eq_error h with hLast | ⟨last, -, h⟩
        · exact .inr (hRow (fun row hMem => List.mem_append_right _ hMem) hLast)
        · cases h

end Layout

end ArithCircuit
