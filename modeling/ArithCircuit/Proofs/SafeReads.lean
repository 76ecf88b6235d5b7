import ArithCircuit.Proofs.Document
import ArithCircuit.Proofs.Listing.Lines
import ArithCircuit.Proofs.LiveWires
import Mathlib.Data.List.TakeWhile

/-! Reads of a finished circuit. Its rows are listed, filled and verified by looking up registers,
public values and auxiliary variables, each of which could be missing. Generic gates are made of one
half or two and use no register beyond them, and auxiliary variables are defined from earlier ones,
so everything that is looked up is there. -/
namespace ArithCircuit

namespace Gate

variable {p : Nat}

/-- The gate is one half over three registers, or two halves over six. -/
def Halved (gate : Gate p) : Prop :=
  (gate.coeffs.length = 5 ∧ gate.usedWires ≤ 3) ∨ (gate.coeffs.length = 10 ∧ gate.usedWires ≤ 6)

/-- No wire comes after those that are used. -/
theorem wire_of_usedWires_le {gate : Gate p} {register : Nat} (h : gate.usedWires ≤ register) :
    gate.wire register = 0 := by
  by_cases hRegister : register < rowWidth
  · have hZeros : rowWidth - 1 - register <
        (gate.wires.toList.reverse.takeWhile (· == 0)).length := by
      rw [usedWires] at h
      omega
    have hMem := List.getElem_mem hZeros
    have hZero := List.mem_takeWhile_imp hMem
    rw [(List.takeWhile_prefix _).getElem hZeros, List.getElem_reverse] at hZero
    have hSame : gate.wires.toList.length - 1 - (rowWidth - 1 - register) = register := by
      rw [Vector.length_toList]
      omega
    simp only [hSame] at hZero
    rw [wire, Vector.getElem?_eq_getElem hRegister]
    simpa using hZero
  · rw [wire, Vector.getElem?_eq_none (Nat.le_of_not_lt hRegister)]
    rfl

/-- The registers that a gate uses come before those that it leaves over. -/
theorem register_lt_of_usedWires_le {gate : Gate p} {count : Nat} (h : gate.usedWires ≤ count) :
    ∀ register ∈ Circuit.usedRegisters gate, register.1 < count := by
  intro register hUsed
  obtain ⟨hAt, hWire⟩ := Circuit.mem_usedRegisters.mp hUsed
  by_contra hBeyond
  have hZero := wire_of_usedWires_le (h.trans (Nat.le_of_not_lt hBeyond))
  rw [wire, ← Vector.getElem?_toList, hAt] at hZero
  exact hWire hZero

/-- A gate that fits its kind uses registers that have names. -/
theorem legible_of_validate {gate : Gate p} (h : gate.validate = .ok ()) : gate.Legible := by
  intro hGeneric
  have hUsed := (validate_eq_ok_iff.mp h).1
  rw [hGeneric] at hUsed
  exact register_lt_of_usedWires_le hUsed

theorem Halved.usedWires_le {gate : Gate p} (h : gate.Halved) : gate.usedWires ≤ 6 := by
  rcases h with ⟨-, h⟩ | ⟨-, h⟩
  · omega
  · exact h

end Gate

/-- A refusal is due because a value that is looked up is missing from the witness. -/
def Witness.Misses {p : Nat} (witness : Witness p) (live : Nat → Prop) (stop : Stop) : Prop :=
  ∃ x, live x ∧ witness.get x = .error (.missingValue x) ∧ stop = .fault (.missingValue x)

namespace Circuit

variable {p : Nat}

/-- A circuit can be listed if its generic gates use the registers of their halves only. -/
theorem exists_listing {circuit : Circuit p}
    (hGates : ∀ gate ∈ circuit.gates, gate.kind = .generic → gate.Halved) :
    ∃ text, circuit.listing = .ok text :=
  ⟨_, listing_eq fun gate hGate hGeneric =>
    Gate.register_lt_of_usedWires_le (hGates gate hGate hGeneric).usedWires_le⟩

variable {witness : Witness p} {live : Nat → Prop} {stop : Stop}

/-- A signal in scope has a value unless the witness misses it. -/
theorem signalValue_error {aux : Array (Residue p)} {signal : Signal}
    (hScope : signal.InScope live aux.size)
    (h : signalValue witness aux signal = .error stop) : witness.Misses live stop := by
  cases signal with
  | var index =>
      rw [signalValue, Witness.get] at h
      refine ⟨index, hScope, ?_⟩
      rw [Witness.get]
      split at h
      · cases h
      · cases h
        exact ⟨rfl, rfl⟩
  | aux index =>
      have hIndex : index < aux.size := hScope
      rw [signalValue, Array.getElem?_eq_getElem hIndex] at h
      cases h

theorem termsValue_error {aux : Array (Residue p)} {terms : List (Residue p × Signal)}
    (hScope : ∀ term ∈ terms, term.2.InScope live aux.size) {sum : Residue p}
    (h : termsValue witness aux sum terms = .error stop) : witness.Misses live stop := by
  induction terms generalizing sum with
  | nil => cases h
  | cons term rest ih =>
      obtain ⟨hFirst, hRest⟩ := List.forall_mem_cons.mp hScope
      rw [termsValue] at h
      cases hValue : signalValue witness aux term.2 with
      | error stop' =>
          rw [hValue] at h
          cases h
          exact signalValue_error hFirst hValue
      | ok value =>
          rw [hValue] at h
          exact ih hRest h

/-- Every auxiliary variable has a value by the time that it is looked up, since definitions refer
to earlier ones. -/
theorem auxValues_cases (witness : Witness p) (aux : Array (Residue p))
    {definitions : List (AuxDef p)}
    (hScope : ∀ (k : Nat) (d : AuxDef p), definitions[k]? = some d →
      ∀ term ∈ d.terms, term.2.InScope live (aux.size + k)) :
    (∃ values, auxValues witness aux definitions = .ok values ∧
      values.size = aux.size + definitions.length) ∨
    ∃ stop, auxValues witness aux definitions = .error stop ∧ witness.Misses live stop := by
  induction definitions generalizing aux with
  | nil => exact .inl ⟨aux, rfl, rfl⟩
  | cons d rest ih =>
      rw [auxValues]
      cases hValue : termsValue witness aux d.constant d.terms with
      | error stop => exact .inr ⟨stop, rfl, termsValue_error (hScope 0 d rfl) hValue⟩
      | ok value =>
          have hRest (k : Nat) (d' : AuxDef p) (hDef : rest[k]? = some d') :
              ∀ term ∈ d'.terms, term.2.InScope live ((aux.push value).size + k) := by
            rw [Array.size_push, Nat.add_assoc, Nat.add_comm 1]
            exact hScope (k + 1) d' hDef
          have hNext := ih (aux.push value) hRest
          rw [Array.size_push, Nat.add_assoc, Nat.add_comm 1] at hNext
          exact hNext

variable [Modulus p]

/-- The rows of a circuit can be filled unless the witness misses a value, whatever its length. -/
theorem assign_error {circuit : Circuit p}
    (hAux : ∀ (k : Nat) (d : AuxDef p), circuit.aux[k]? = some d →
      ∀ term ∈ d.terms, term.2.InScope live k)
    (hGates : ∀ gate ∈ circuit.gates, ∀ i signal,
      circuit.signalOf (gate.wire i) = some signal → signal.InScope live circuit.aux.length)
    (h : circuit.assign witness = .error stop) : witness.Misses live stop := by
  have hScope (k : Nat) (d : AuxDef p) (hDef : circuit.aux[k]? = some d) :
      ∀ term ∈ d.terms, term.2.InScope live ((#[] : Array (Residue p)).size + k) := by
    rw [Array.size_empty, Nat.zero_add]
    exact hAux k d hDef
  rw [assign] at h
  rcases auxValues_cases witness #[] hScope with
    ⟨values, hValues, hSize⟩ | ⟨stop', hStop, hMisses⟩
  · rw [hValues] at h
    rw [Array.size_empty, Nat.zero_add] at hSize
    obtain ⟨gate, hGate, hRow⟩ := Traversal.exists_of_mapM_eq_error h
    obtain ⟨word, hWord, hCell⟩ := Traversal.exists_of_vector_mapM_eq_error hRow
    obtain ⟨i, rfl⟩ := Gate.exists_wire hWord
    rw [cellValue] at hCell
    cases hSignal : circuit.signalOf (gate.wire i) with
    | none =>
        rw [hSignal] at hCell
        cases hCell
    | some signal =>
        rw [hSignal] at hCell
        exact signalValue_error (hSize ▸ hGates gate hGate i signal hSignal) hCell
  · rw [hStop] at h
    cases h
    exact hMisses

end Circuit

/-- What was looked up, which must be there. -/
def present {α : Type} : Option α → Except Stop α
  | some found => .ok found
  | none => .error .abort

namespace Circuit

variable {p : Nat} [Modulus p]

/-- Check the halves of a row from a given one on, over registers that must be there. -/
def inspectHalves (row : Nat) (cells : Cells p) (input : Residue p) :
    Nat → List (HalfCoeffs p) → Except Stop Unit
  | _, [] => .ok ()
  | half, coeffs :: rest => do
    let l ← present cells[3 * half]?
    let r ← present cells[3 * half + 1]?
    let o ← present cells[3 * half + 2]?
    if coeffs.residual l r o - input = 0 then inspectHalves row cells input (half + 1) rest
    else
      .error (.fault (.unsatisfied (some (rowLabel row))
        (GateKind.generic.name ++ " (half " ++ half.repr ++ ")")
        [l.signed, r.signed, o.signed]))

/-- Check a generic row. The value of a public input must be there. -/
def inspectRow (publicCount : Nat) (inputs : List (Residue p)) (row : Nat) (gate : Gate p)
    (cells : Cells p) : Except Stop Unit :=
  if gate.kind = .generic then do
    let input ← if row < publicCount then present inputs[row]? else .ok 0
    inspectHalves row cells input 0 (halvesOf gate.coeffs)
  else .ok ()

/-- Check rows from a given one on. -/
def inspectFrom (publicCount : Nat) (inputs : List (Residue p)) :
    Nat → List (Gate p) → List (Cells p) → Except Stop Unit
  | row, gate :: gates, cells :: rows => do
    inspectRow publicCount inputs row gate cells
    inspectFrom publicCount inputs (row + 1) gates rows
  | _, _, _ => .ok ()

/-- Check the cells of all rows against public values, and give up on a register or a value that is
not there. -/
def inspect (circuit : Circuit p) (rows : List (Cells p)) (inputs : List (Residue p)) :
    Except Stop Unit :=
  if inputs.length ≠ circuit.publicCount then
    .error (.fault (.publicCount inputs.length circuit.publicCount))
  else if rows.length ≠ circuit.gates.length then
    .error (.fault (.valueCount rows.length circuit.gates.length))
  else inspectFrom circuit.publicCount inputs 0 circuit.gates rows

theorem present_cell (cells : Cells p) {register : Nat} (h : register < rowWidth) :
    present cells[register]? = .ok (cell cells register) := by
  rw [cell, Vector.getElem?_eq_getElem h]
  rfl

omit [Modulus p] in
theorem halvesOf_length_le (coeffs : List (Residue p)) :
    5 * (halvesOf coeffs).length ≤ coeffs.length := by
  fun_induction halvesOf coeffs with
  | case1 left right out product constant rest ih =>
      simp only [List.length_cons]
      omega
  | case2 coeffs => exact Nat.zero_le _

omit [Modulus p] in
theorem halves_fit {gate : Gate p} (h : gate.Halved) :
    3 * (0 + (halvesOf gate.coeffs).length) ≤ rowWidth := by
  have hHalves := halvesOf_length_le gate.coeffs
  rw [rowWidth]
  rcases h with ⟨hLength, -⟩ | ⟨hLength, -⟩ <;> omega

/-- The registers of halves are there as long as they fit in a row. -/
theorem inspectHalves_eq (row : Nat) (cells : Cells p) (input : Residue p) (start : Nat)
    (halves : List (HalfCoeffs p)) (h : 3 * (start + halves.length) ≤ rowWidth) :
    inspectHalves row cells input start halves =
      (verifyHalves row cells input start halves).mapError .fault := by
  induction halves generalizing start with
  | nil => rfl
  | cons coeffs rest ih =>
      rw [List.length_cons] at h
      rw [inspectHalves, present_cell cells (by omega), present_cell cells (by omega),
        present_cell cells (by omega), verifyHalves]
      simp only [bind, Except.bind]
      split_ifs
      · exact ih (start + 1) (by omega)
      · rfl

/-- The value of a public input is there, since there are as many values as public inputs. -/
theorem inspectRow_eq (inputs : List (Residue p)) {gate : Gate p}
    (hGate : gate.kind = .generic → gate.Halved) (row : Nat) (cells : Cells p) :
    inspectRow inputs.length inputs row gate cells =
      (if gate.kind = .generic then
        verifyHalves row cells ((inputs.drop row).headD 0) 0 (halvesOf gate.coeffs)
      else .ok ()).mapError .fault := by
  rw [inspectRow]
  split_ifs with hGeneric hPublic
  · have hInput : present inputs[row]? = .ok ((inputs.drop row).headD 0) := by
      rw [List.getElem?_eq_getElem hPublic, List.drop_eq_getElem_cons hPublic]
      rfl
    rw [hInput]
    exact inspectHalves_eq row cells _ 0 _ (halves_fit (hGate hGeneric))
  · rw [List.drop_eq_nil_of_le (Nat.le_of_not_lt hPublic)]
    exact inspectHalves_eq row cells _ 0 _ (halves_fit (hGate hGeneric))
  · rfl

theorem inspectFrom_eq (inputs : List (Residue p)) {gates : List (Gate p)}
    (hGates : ∀ gate ∈ gates, gate.kind = .generic → gate.Halved) (row : Nat)
    (rows : List (Cells p)) :
    inspectFrom inputs.length inputs row gates rows =
      (verifyFrom row (inputs.drop row) gates rows).mapError .fault := by
  induction gates generalizing row rows with
  | nil => rfl
  | cons gate gates ih =>
      obtain ⟨hGate, hRest⟩ := List.forall_mem_cons.mp hGates
      cases rows with
      | nil => rfl
      | cons cells rows =>
          rw [inspectFrom, inspectRow_eq inputs hGate, ih hRest, verifyFrom, ← List.tail_drop]
          generalize (if gate.kind = .generic then
            verifyHalves row cells ((inputs.drop row).headD 0) 0 (halvesOf gate.coeffs)
            else .ok ()) = checked
          cases checked with
          | error fault => rfl
          | ok _ => rfl

/-- Verification looks up nothing that is not there, whatever the rows and the public values. -/
theorem inspect_eq {circuit : Circuit p}
    (hGates : ∀ gate ∈ circuit.gates, gate.kind = .generic → gate.Halved)
    (rows : List (Cells p)) (inputs : List (Residue p)) :
    circuit.inspect rows inputs = (circuit.verify rows inputs).mapError .fault := by
  rw [inspect, verify]
  split_ifs with hInputs hRows
  · rfl
  · rfl
  · rw [← Decidable.not_not.mp hInputs]
    exact inspectFrom_eq inputs hGates 0 rows

end Circuit

/-- A gate has no more wires in use than its row has registers. -/
theorem Row.usedWires_le_of_gateOn {p : Nat} [Modulus p] {externals : Nat} {kind : GateKind}
    {registers : List (Option Signal)} {coeffs : List (Residue p)} {gate : Gate p}
    (h : gateOn externals kind registers coeffs = .ok gate) :
    gate.usedWires ≤ registers.length ∧ gate.coeffs = coeffs := by
  obtain ⟨wires, hWires, hArity, rfl⟩ := gateOn_eq_ok_iff.mp h
  rw [hWires.length_eq]
  exact ⟨Gate.usedWires_padWires_le kind (wires_le_of_checkArity hArity) coeffs, rfl⟩

/-- Every generic gate of a finished circuit is one half or two. -/
theorem Circuit.Realizes.halved {p : Nat} [Modulus p] {circuit : Circuit p} {settings : Settings}
    {table : VariableTable p} {waiting : List (Assertion p)} {draft : Draft p}
    (h : circuit.Realizes settings table waiting draft) {live : Nat → Prop}
    (hDraft : draft.WellFormed live) :
    ∀ gate ∈ circuit.gates, gate.kind = .generic → gate.Halved := by
  intro gate hGate hGeneric
  rw [← List.take_append_drop circuit.publicCount circuit.gates] at hGate
  rcases List.mem_append.mp hGate with hPublic | hRow
  · obtain ⟨index, -, hMade⟩ := Traversal.exists_of_mem_right h.exposed hPublic
    obtain ⟨hWires, hCoeffs⟩ := Row.usedWires_le_of_gateOn hMade
    exact .inl ⟨congrArg List.length hCoeffs, hWires.trans (by simp)⟩
  · obtain ⟨row, hRow, hMade⟩ := Traversal.exists_of_mem_right h.rows hRow
    have hProper := Recording.layout_proper hDraft (fun _ => id) settings.batchHalves row hRow
    rw [Row.kind_of_gate hMade] at hGeneric
    rw [Row.gate_eq] at hMade
    obtain ⟨hWires, hCoeffs⟩ := Row.usedWires_le_of_gateOn hMade
    cases row with
    | single half => exact .inl ⟨congrArg List.length hCoeffs, hWires⟩
    | double first second => exact .inr ⟨congrArg List.length hCoeffs, hWires⟩
    | other kind cells coeffs => exact absurd hGeneric (hProper _ List.mem_cons_self).1

end ArithCircuit
