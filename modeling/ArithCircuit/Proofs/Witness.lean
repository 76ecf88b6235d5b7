import ArithCircuit.Proofs.Compile

/-! Filling and verifying the rows of a circuit. A witness determines the auxiliary variables in the
order of their definitions, so the rows can be filled as soon as the live variables and the public
inputs have values. If everything in the draft holds for these values, verification accepts. -/
namespace ArithCircuit

/-- The public values are those of the first variables. -/
theorem Witness.publicValues_eq {p : Nat} {witness : Witness p} {w : Nat → Residue p}
    (h : ∀ x < witness.publicCount, witness.get x = .ok (w x)) :
    witness.publicValues = .ok ((List.range witness.publicCount).map w) := by
  have hFrom (count index : Nat) (hCount : index + count ≤ witness.publicCount) :
      witness.valuesFrom index count = .ok ((List.range' index count).map w) := by
    induction count generalizing index with
    | zero => rfl
    | succ count ih =>
        have hRest := ih (index + 1) (by omega)
        simp only [valuesFrom, h index (by omega), hRest]
        rfl
  rw [publicValues, hFrom _ 0 (by omega), List.range_eq_range']

namespace Circuit

variable {p : Nat} [Modulus p] {witness : Witness p} {live : Nat → Prop} {draft : Draft p}
  {σ : Signal → Residue p}

/-- The values of the first auxiliary variables. -/
def firstAux (σ : Signal → Residue p) (count : Nat) : Array (Residue p) :=
  ((List.range count).map (σ ∘ .aux)).toArray

omit [Modulus p] in
theorem firstAux_succ (σ : Signal → Residue p) (count : Nat) :
    (firstAux σ count).push (σ (.aux count)) = firstAux σ (count + 1) := by
  simp [firstAux, List.range_succ]

omit [Modulus p] in
theorem signalValue_eq (hLive : ∀ x, live x → witness.get x = .ok (σ (.var x))) {count : Nat}
    {signal : Signal} (h : signal.InScope live count) :
    signalValue witness (firstAux σ count) signal = .ok (σ signal) := by
  cases signal with
  | var index =>
      rw [signalValue, hLive index h]
      rfl
  | aux index =>
      have hIndex : index < count := h
      simp [signalValue, firstAux, hIndex]

theorem termsValue_eq (hLive : ∀ x, live x → witness.get x = .ok (σ (.var x))) {count : Nat}
    {terms : List (Residue p × Signal)} (hTerms : ∀ term ∈ terms, term.2.InScope live count)
    (sum : Residue p) :
    termsValue witness (firstAux σ count) sum terms = .ok (sum + Signal.sumAt σ terms) := by
  induction terms generalizing sum with
  | nil => simp [termsValue]
  | cons term rest ih =>
      have hFirst := signalValue_eq hLive (hTerms term List.mem_cons_self)
      simp only [termsValue, hFirst]
      rw [ih (fun t ht => hTerms t (List.mem_cons_of_mem _ ht)), Signal.sumAt_cons, add_assoc]

/-- The auxiliary variables are computed in the order of their definitions. -/
theorem auxValues_eq (hDraft : draft.WellFormed live) (hσ : draft.Solves σ)
    (hLive : ∀ x, live x → witness.get x = .ok (σ (.var x))) :
    auxValues witness #[] draft.aux.toList = .ok (firstAux σ draft.aux.size) := by
  -- the definitions that are left, after those whose values have been computed
  have hFrom (rest : List (AuxDef p)) (done : List (AuxDef p))
      (hAll : done ++ rest = draft.aux.toList) :
      auxValues witness (firstAux σ done.length) rest = .ok (firstAux σ draft.aux.size) := by
    induction rest generalizing done with
    | nil =>
        have hDone : done.length = draft.aux.size := by simpa using congrArg List.length hAll
        rw [auxValues, hDone]
    | cons definition rest ih =>
        have hDef : draft.aux[done.length]? = some definition := by
          rw [← Array.getElem?_toList, ← hAll]
          simp
        have hTerms := termsValue_eq hLive (hDraft.earlier _ _ hDef) definition.constant
        have hValue : definition.constant + Signal.sumAt σ definition.terms =
            σ (.aux done.length) := by
          rw [hσ _ _ hDef, AuxDef.value, add_comm]
        rw [hValue] at hTerms
        have hNext := ih (done ++ [definition]) (by simpa using hAll)
        rw [List.length_append, List.length_singleton, ← firstAux_succ] at hNext
        rw [auxValues, hTerms]
        exact hNext
  exact hFrom draft.aux.toList [] rfl

/-- A row is filled with the values on its wires, provided that its registers have values. -/
theorem fillRow_eq {circuit : Circuit p} {aux : Array (Residue p)} {gate : Gate p}
    {registers : List (Option Signal)}
    (hRead : ∀ i, circuit.signalOf (gate.wire i) = registers.getD i none)
    (hValues : ∀ s, some s ∈ registers → signalValue witness aux s = .ok (σ s)) :
    gate.wires.mapM (circuit.cellValue witness aux) =
      .ok (gate.wires.map (circuit.onWires σ)) := by
  refine Traversal.vector_mapM_eq_map fun word hWord => ?_
  obtain ⟨i, hWire⟩ := Gate.exists_wire hWord
  rw [cellValue, onWires, ← hWire, hRead]
  cases hSignal : registers.getD i none with
  | none => rfl
  | some s =>
      refine hValues s ?_
      rw [List.getD_eq_getElem?_getD] at hSignal
      cases hAt : registers[i]? with
      | none => simp [hAt] at hSignal
      | some signal =>
          rw [hAt, Option.getD_some] at hSignal
          exact hSignal ▸ List.mem_of_getElem? hAt

theorem verifyHalves_eq_ok (row : Nat) (cells : Cells p) (input : Residue p) (start : Nat)
    (halves : List (HalfCoeffs p))
    (h : ∀ (i : Nat) (k : HalfCoeffs p), halves[i]? = some k →
      k.residual (cell cells (3 * (start + i))) (cell cells (3 * (start + i) + 1))
        (cell cells (3 * (start + i) + 2)) = input) :
    verifyHalves row cells input start halves = .ok () := by
  induction halves generalizing start with
  | nil => rfl
  | cons k rest ih =>
      obtain ⟨hFirst, hRest⟩ := Gate.forall_half_cons_iff.mp h
      rw [Nat.add_zero] at hFirst
      simp only [verifyHalves, hFirst, sub_self, if_true]
      refine ih (start + 1) fun i k' hk' => ?_
      rw [Nat.add_assoc, Nat.add_comm 1]
      exact hRest i k' hk'

/-- Verification of filled rows, from what the gates compute on their wires. -/
theorem verifyFrom_eq_ok (circuit : Circuit p) (σ : Signal → Residue p) (row : Nat)
    (inputs : List (Residue p)) (gates : List (Gate p))
    (h : ∀ (i : Nat) (gate : Gate p), gates[i]? = some gate → gate.kind = .generic →
      gate.Computes (circuit.onWires σ) (inputs.getD i 0)) :
    verifyFrom row inputs gates (gates.map fun gate => gate.wires.map (circuit.onWires σ)) =
      .ok () := by
  have hCell (gate : Gate p) (i : Nat) :
      cell (gate.wires.map (circuit.onWires σ)) i = circuit.onWires σ (gate.wire i) := by
    rw [cell, Gate.wire, Vector.getElem?_map]
    cases gate.wires[i]? with
    | some word => rfl
    | none => rfl
  induction gates generalizing row inputs with
  | nil => rfl
  | cons gate rest ih =>
      have hRest : verifyFrom (row + 1) inputs.tail rest
          (rest.map fun gate => gate.wires.map (circuit.onWires σ)) = .ok () := by
        refine ih (row + 1) inputs.tail fun i gate' hGate' hKind => ?_
        have hInput : inputs.tail.getD i 0 = inputs.getD (i + 1) 0 := by
          cases inputs <;> simp
        rw [hInput]
        exact h (i + 1) gate' hGate' hKind
      by_cases hKind : gate.kind = .generic
      · have hInput : inputs.headD 0 = inputs.getD 0 0 := by
          cases inputs <;> rfl
        have hHalves : verifyHalves row (gate.wires.map (circuit.onWires σ)) (inputs.headD 0) 0
            (halvesOf gate.coeffs) = .ok () := by
          refine verifyHalves_eq_ok _ _ _ _ _ fun i k hk => ?_
          rw [hCell, hCell, hCell, Nat.zero_add, hInput]
          exact h 0 gate rfl hKind i k hk
        simp only [List.map_cons, verifyFrom, if_pos hKind, hHalves, hRest]
      · simp only [List.map_cons, verifyFrom, if_neg hKind, hRest]

/-- Every row can be filled: its registers are live variables or public inputs, or auxiliary
variables that have been computed. -/
theorem Realizes.fill_gates {circuit : Circuit p} {settings : Settings}
    {table : VariableTable p} {waiting : List (Assertion p)}
    (h : circuit.Realizes settings table waiting draft) (hDraft : draft.WellFormed live)
    (hLess : ∀ x, live x → x < table.size) (hTable : table.publicCount ≤ table.size)
    (hLive : ∀ x, live x → witness.get x = .ok (σ (.var x)))
    (hPublic : ∀ x < table.publicCount, witness.get x = .ok (σ (.var x))) :
    ∀ gate ∈ circuit.gates,
      gate.wires.mapM (circuit.cellValue witness (firstAux σ draft.aux.size)) =
        .ok (gate.wires.map (circuit.onWires σ)) := by
  intro gate hGate
  rw [← List.take_append_drop circuit.publicCount circuit.gates] at hGate
  rcases List.mem_append.mp hGate with hGate | hGate
  · obtain ⟨i, hi⟩ := List.mem_iff_getElem?.mp hGate
    obtain ⟨index, hIndex, hMade⟩ := Traversal.getElem?_of_forall₂ h.exposed hi
    have hPublicIndex : index < table.publicCount :=
      h.publicCount ▸ List.mem_range.mp (List.mem_of_getElem? hIndex)
    have hOnly (s : Signal) (hs : some s ∈ [some (Signal.var index)]) : s = .var index := by
      simpa using hs
    have hScope : ∀ s, some s ∈ [some (Signal.var index)] →
        s.InScope (· < circuit.externalCount) 0 := by
      intro s hs
      rw [hOnly s hs, h.externalCount]
      exact hPublicIndex.trans_le hTable
    refine fillRow_eq (Row.gateOn_eq_ok hScope hMade).2.2 fun s hs => ?_
    rw [hOnly s hs, signalValue, hPublic index hPublicIndex]
    rfl
  · obtain ⟨i, hi⟩ := List.mem_iff_getElem?.mp hGate
    obtain ⟨row, hRow, hMade⟩ := Traversal.getElem?_of_forall₂ h.rows hi
    have hProper := h.rows_proper hDraft hLess row (List.mem_of_getElem? hRow)
    rw [Row.gate_eq] at hMade
    refine fillRow_eq (Row.gateOn_eq_ok (hProper.imp fun _ => And.right).inScope hMade).2.2
      fun s hs => ?_
    exact signalValue_eq hLive ((hProper.imp fun _ => And.left).inScope s hs)

/-- A circuit can be filled and verified as soon as the live variables and the public inputs have
values for which everything in its draft holds. -/
theorem Realizes.satisfied {circuit : Circuit p} {settings : Settings}
    {table : VariableTable p} {waiting : List (Assertion p)}
    (h : circuit.Realizes settings table waiting draft) (hDraft : draft.WellFormed live)
    (hLess : ∀ x, live x → x < table.size) (hTable : table.publicCount ≤ table.size)
    (hHolds : ∀ emission ∈ draft.emitted.toList, emission.Holds σ)
    (hLive : ∀ x, live x → witness.get x = .ok (σ (.var x)))
    (hPublic : ∀ x < table.publicCount, witness.get x = .ok (σ (.var x))) :
    ∃ rows, circuit.assign witness = .ok rows ∧
      circuit.verify rows ((List.range table.publicCount).map (σ ∘ .var)) = .ok () := by
  have hAux := auxValues_eq hDraft (hDraft.solves hHolds) hLive
  have hFill := Traversal.mapM_eq_map (h.fill_gates hDraft hLess hTable hLive hPublic)
  refine ⟨circuit.gates.map fun gate => gate.wires.map (circuit.onWires σ), ?_, ?_⟩
  · rw [assign, h.aux, hAux]
    exact hFill
  · rw [verify, if_neg (by simp [h.publicCount]), if_neg (by simp)]
    refine verifyFrom_eq_ok circuit σ 0 _ _ fun i gate hGate hKind => ?_
    by_cases hi : i < circuit.publicCount
    · have hTake : (circuit.gates.take circuit.publicCount)[i]? = some gate := by
        rw [List.getElem?_take_of_lt hi, hGate]
      obtain ⟨index, hIndex, hMade⟩ := Traversal.getElem?_of_forall₂ h.exposed hTake
      obtain rfl : i = index := by simpa [hi] using hIndex
      have hLessAll : i < circuit.externalCount := by
        rw [h.externalCount]
        rw [h.publicCount] at hi
        exact hi.trans_le hTable
      have hInput : ((List.range table.publicCount).map (σ ∘ Signal.var)).getD i 0 =
          σ (.var i) := by
        simp [← h.publicCount, hi]
      rw [hInput]
      exact ((Row.publicGate_computes_iff hLessAll hMade σ _).2).mpr rfl
    · have hInput : ((List.range table.publicCount).map (σ ∘ Signal.var)).getD i 0 = 0 := by
        simp [← h.publicCount, hi]
      have hDrop : gate ∈ circuit.gates.drop circuit.publicCount := by
        refine List.mem_of_getElem? (i := i - circuit.publicCount) ?_
        rw [List.getElem?_drop, Nat.add_sub_cancel' (Nat.le_of_not_lt hi), hGate]
      rw [hInput]
      exact (h.computes_zero_iff hDraft hLess σ).mpr hHolds gate hDrop hKind

end Circuit

end ArithCircuit
