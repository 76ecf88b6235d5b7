import ArithCircuit.Proofs.Compile
import ArithCircuit.Proofs.Lowering.RowCount

/-! Shared rows. Sharing decides how halves are laid out, and nothing else. Taking shared rows apart
gives the gates of the same circuit without sharing, and halves that follow each other take as few
rows as two to a row allow. -/
namespace ArithCircuit

namespace Gate

variable {p : Nat}

/-- One half of a generic gate, as a gate of its own. -/
def half (gate : Gate p) (i : Nat) : Gate p :=
  ⟨.generic, padWires [gate.wire (3 * i), gate.wire (3 * i + 1), gate.wire (3 * i + 2)],
    (gate.coeffs.drop (5 * i)).take 5⟩

/-- Take a gate apart: a generic gate of ten coefficients into its two halves. Any other gate stays
as it is. -/
def split (gate : Gate p) : List (Gate p) :=
  if gate.kind = .generic ∧ gate.coeffs.length = 10 then [gate.half 0, gate.half 1] else [gate]

end Gate

/-- Not a generic row, which is emitted by its halves. -/
def Emission.Distinct {p : Nat} : Emission p → Prop
  | .half _ => True
  | .row kind _ _ => kind ≠ .generic

namespace Row

variable {p : Nat} {externals : Nat} {gate : Gate p}

/-- The rows that what fills the row takes without sharing. -/
def apart (row : Row p) : List (Row p) := row.emissions.map Emission.ownRow

/-- The number of halves in the row. -/
def halfCount : Row p → Nat
  | .single _ => 1
  | .double _ _ => 2
  | .other _ _ _ => 0

theorem single_gate_iff {half : Half p} : (Row.single half).gate externals = .ok gate ↔
    ∃ wires, List.Forall₂ (fun signal word => Signal.wire externals signal = .ok word)
        half.registers wires ∧
      gate = ⟨.generic, Gate.padWires wires, half.coeffs.toList⟩ := by
  rw [gate_eq, gateOn_eq_ok_iff]
  constructor
  · rintro ⟨wires, hWires, -, hGate⟩
    exact ⟨wires, hWires, hGate⟩
  · rintro ⟨wires, hWires, hGate⟩
    have hLength : wires.length = 3 := hWires.length_eq.symm
    exact ⟨wires, hWires, by rw [hLength]; rfl, hGate⟩

theorem double_gate_iff {first second : Half p} :
    (Row.double first second).gate externals = .ok gate ↔
      ∃ wires wires', List.Forall₂ (fun signal word => Signal.wire externals signal = .ok word)
          first.registers wires ∧
        List.Forall₂ (fun signal word => Signal.wire externals signal = .ok word)
          second.registers wires' ∧
        gate = ⟨.generic, Gate.padWires (wires ++ wires'),
          first.coeffs.toList ++ second.coeffs.toList⟩ := by
  rw [gate_eq, gateOn_eq_ok_iff]
  constructor
  · rintro ⟨wires, hWires, -, hGate⟩
    have hFirst := List.forall₂_take_append _ _ _ hWires.flip
    have hSecond := List.forall₂_drop_append _ _ _ hWires.flip
    refine ⟨_, _, hFirst.flip, hSecond.flip, ?_⟩
    rw [List.take_append_drop]
    exact hGate
  · rintro ⟨wires, wires', hFirst, hSecond, hGate⟩
    have hLength : (wires ++ wires').length = 6 := by
      rw [List.length_append, ← hFirst.length_eq, ← hSecond.length_eq]
      rfl
    exact ⟨wires ++ wires', List.rel_append hFirst hSecond, by rw [hLength]; rfl, hGate⟩

/-- The gate of a row, taken apart, gives the gates of what fills the row. -/
theorem gate_apart {row : Row p} (hRow : ∀ emission ∈ row.emissions, emission.Distinct)
    (h : row.gate externals = .ok gate) :
    List.Forall₂ (fun row gate => row.gate externals = .ok gate) row.apart gate.split := by
  cases row with
  | single half =>
      obtain ⟨wires, -, rfl⟩ := single_gate_iff.mp h
      exact .cons h .nil
  | double first second =>
      obtain ⟨wires, wires', hFirst, hSecond, rfl⟩ := double_gate_iff.mp h
      obtain ⟨a, b, c, rfl⟩ := List.length_eq_three.mp hFirst.length_eq.symm
      obtain ⟨d, e, f, rfl⟩ := List.length_eq_three.mp hSecond.length_eq.symm
      have hWidth : [a, b, c, d, e, f].length ≤ rowWidth := by simp [rowWidth]
      have hWire := Gate.wire_padWires .generic hWidth
        (first.coeffs.toList ++ second.coeffs.toList)
      have hSplit : (⟨.generic, Gate.padWires [a, b, c, d, e, f],
          first.coeffs.toList ++ second.coeffs.toList⟩ : Gate p).split =
          [⟨.generic, Gate.padWires [a, b, c], first.coeffs.toList⟩,
            ⟨.generic, Gate.padWires [d, e, f], second.coeffs.toList⟩] := by
        rw [Gate.split, if_pos ⟨rfl, rfl⟩, Gate.half, Gate.half]
        simp only [hWire]
        rfl
      rw [List.cons_append, List.cons_append, List.cons_append, List.nil_append, hSplit]
      exact .cons (single_gate_iff.mpr ⟨_, hFirst, rfl⟩)
        (.cons (single_gate_iff.mpr ⟨_, hSecond, rfl⟩) .nil)
  | other kind cells coeffs =>
      have hOther : gate.kind ≠ .generic := kind_of_gate h ▸ hRow _ List.mem_cons_self
      rw [Gate.split, if_neg fun hSplit => hOther hSplit.1]
      exact .cons h .nil

/-- The gates of all rows, taken apart. -/
theorem gates_apart {rows : List (Row p)} {gates : List (Gate p)}
    (hRows : ∀ row ∈ rows, ∀ emission ∈ row.emissions, emission.Distinct)
    (h : List.Forall₂ (fun row gate => row.gate externals = .ok gate) rows gates) :
    List.Forall₂ (fun row gate => row.gate externals = .ok gate) (rows.flatMap apart)
      (gates.flatMap Gate.split) := by
  induction h with
  | nil => exact .nil
  | cons hGate _ ih =>
      obtain ⟨hRow, hRest⟩ := List.forall_mem_cons.mp hRows
      exact List.rel_append (gate_apart hRow hGate) (ih hRest)

/-- Halves are packed: one alone in its row is followed by no other half. -/
def Packed (rows : List (Row p)) : Prop :=
  rows.IsChain fun row next => row.halfCount = 1 → next.halfCount = 0

end Row

namespace Layout

variable {p : Nat}

/-- Taken apart, the rows are those without sharing. -/
theorem allRows_apart (batch : Bool) (emitted : List (Emission p)) :
    (ofEmissions batch emitted).allRows.flatMap Row.apart =
      (ofEmissions false emitted).allRows := by
  have hAll := congrArg (List.map Emission.ownRow) (ofEmissions_emissions batch emitted)
  rw [emissions, List.map_flatMap] at hAll
  rw [allRows_of_unshared]
  exact hAll

end Layout

namespace Draft

variable {p : Nat} [Modulus p] {draft next : Draft p} {table : VariableTable p}
  {settings : Settings} {assertion : Assertion p} {assertions : List (Assertion p)}

omit [Modulus p] in
theorem AddsHalves.distinct {extra : Nat} (h : AddsHalves extra draft next)
    (hDraft : ∀ emission ∈ draft.emitted.toList, emission.Distinct) :
    ∀ emission ∈ next.emitted.toList, emission.Distinct := by
  obtain ⟨halves, hEmitted, -⟩ := h.emitted
  rw [hEmitted, List.forall_mem_append]
  refine ⟨hDraft, fun emission hMem => ?_⟩
  obtain ⟨half, -, rfl⟩ := List.mem_map.mp hMem
  trivial

theorem lower_distinct (hDraft : ∀ emission ∈ draft.emitted.toList, emission.Distinct)
    (h : draft.lower settings table assertion = (.ok (), next)) :
    ∀ emission ∈ next.emitted.toList, emission.Distinct := by
  rcases lower_ok_cases h with ⟨-, extra, -, hAdds, -, -⟩ | ⟨request, -, rfl, hKind, -, -, -⟩
  · exact hAdds.distinct hDraft
  · rw [emit_emitted, Array.toList_push, List.forall_mem_append]
    refine ⟨(materializeAll_adds draft settings table request.operands).distinct hDraft, ?_⟩
    exact List.forall_mem_singleton.mpr hKind

/-- Rows that are not emitted by halves are never generic. -/
theorem lowerAll_distinct (hDraft : ∀ emission ∈ draft.emitted.toList, emission.Distinct)
    (h : lowerAll settings table draft assertions = (.ok (), next)) :
    ∀ emission ∈ next.emitted.toList, emission.Distinct := by
  induction assertions generalizing draft with
  | nil =>
      cases h
      exact hDraft
  | cons assertion rest ih =>
      rw [lowerAll] at h
      split at h
      · cases h
      · rename_i middle hLower
        exact ih (lower_distinct hDraft hLower) h

end Draft

namespace Gate

variable {p : Nat} {externals : Nat}

/-- Generic gates are packed: one that is half empty is followed by no generic gate. -/
def Packed (gates : List (Gate p)) : Prop :=
  gates.IsChain fun gate next =>
    gate.kind = .generic → gate.split.length = 1 → next.kind ≠ .generic

/-- Generic gates that are packed take one row for two halves. -/
theorem Packed.length_eq {run : List (Gate p)} (h : Packed run)
    (hRun : ∀ gate ∈ run, gate.kind = .generic) :
    run.length = ((run.flatMap split).length + 1) / 2 := by
  have hSplit (gate : Gate p) : gate.split.length = 1 ∨ gate.split.length = 2 := by
    rw [split]
    split_ifs
    · exact .inr rfl
    · exact .inl rfl
  induction run with
  | nil => simp
  | cons gate rest ih =>
      obtain ⟨hGate, hRest⟩ := List.forall_mem_cons.mp hRun
      have hTail := ih h.tail hRest
      rw [List.flatMap_cons, List.length_append, List.length_cons]
      cases rest with
      | nil =>
          have hOne := hSplit gate
          simp only [List.length_nil, List.flatMap_nil]
          omega
      | cons next rest =>
          have hTwo : gate.split.length = 2 :=
            (hSplit gate).resolve_left fun hOne =>
              (List.isChain_cons_cons.mp h).1 hGate hOne (hRest next List.mem_cons_self)
          rw [hTwo]
          omega

end Gate

namespace VariableTable

variable {p : Nat} [Modulus p]

end VariableTable

/-- The gates of public inputs are not shared. -/
theorem Row.publicGates_split {p : Nat} [Modulus p] {externals : Nat} {indices : List Nat}
    {gates : List (Gate p)}
    (h : List.Forall₂ (fun i gate => publicGate externals i = .ok gate) indices gates) :
    gates.flatMap Gate.split = gates := by
  induction h with
  | nil => rfl
  | cons hGate _ ih =>
      obtain ⟨wires, -, -, rfl⟩ := gateOn_eq_ok_iff.mp hGate
      rw [List.flatMap_cons, ih]
      rfl

namespace Recording

variable {p : Nat} [Modulus p] {recording : Recording p} {table : VariableTable p}
  {waiting : List (Assertion p)} {unified : Nat}

end Recording

end ArithCircuit
