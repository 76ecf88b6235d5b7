import ArithCircuit.Proofs.PathSearch
import ArithCircuit.Proofs.SafeReads

/-! Nothing gives up. A computation that breaks an assumption of the library stops without an
answer. The assumptions are about classes, divisors, definitions, rows and everything that is looked
up, and they hold after any run of allocations and recorded assertions: each assertion is recorded
or refused with a cause, and so is the whole recording when it is finished. A circuit that comes out
of it can be listed, filled and verified whatever it is given. -/
namespace ArithCircuit

/-- Whatever is looked up in the table or asked of its classes stays within their rules. -/
structure VariableTable.Sturdy {p : Nat} [Modulus p] (table : VariableTable p) : Prop where
  /-- Searches end inside the table, one after the other. -/
  searches : ∀ xs : List Nat, table.classes.searchAll xs =
    .ok (xs.map table.classes.find, xs.foldl Forest.compress table.classes)
  /-- Searches before it do not matter to an equation. No step in solving it gives up, and it is
  refused as a contradiction only. -/
  solves : ∀ (sought form : LinearForm p) (policy : Unification) (label : Option String),
    (∀ x ∈ form.terms.map Prod.snd, x < table.size) →
    (table.compress sought).solve form policy label =
      (table.compress sought).unify form policy label ∧
    ∀ stop, (table.compress sought).unify form policy label = .error stop →
      ∃ statement, stop = .fault (.unsatisfied label statement [])

/-- Whatever the circuit is given, it is listed, filled and verified without giving up. -/
structure Circuit.Sturdy {p : Nat} [Modulus p] (circuit : Circuit p) : Prop where
  halved : ∀ gate ∈ circuit.gates, gate.kind = .generic → gate.Halved
  listing : ∃ text, circuit.listing = .ok text
  /-- A witness may have too few values, too many, or lack some. -/
  assign : ∀ (witness : Witness p) (stop : Stop), circuit.assign witness = .error stop →
    witness.Misses (· < circuit.externalCount) stop
  verify : ∀ (rows : List (Cells p)) (inputs : List (Residue p)),
    circuit.inspect rows inputs = (circuit.verify rows inputs).mapError .fault

variable {p : Nat} [Modulus p]

theorem GateKind.checkArity_error {kind : GateKind} {wires coeffs : Nat} {fault : Fault}
    (h : kind.checkArity wires coeffs = .error fault) :
    fault = .gateOverflow kind wires coeffs := by
  rw [checkArity] at h
  split_ifs at h
  exact (Except.error.inj h).symm

omit [Modulus p] in
theorem Constraint.checkArity_error {constraint : Constraint p} {fault : Fault}
    (h : constraint.checkArity = .error fault) :
    ∃ kind wires coeffs, fault = .gateOverflow kind wires coeffs := by
  cases constraint with
  | raw kind operands coeffs => exact ⟨_, _, _, GateKind.checkArity_error h⟩
  | _ => cases h

omit [Modulus p] in
theorem Gate.wires_length_le_of_ofWires {kind : GateKind} {wires : List UInt32}
    {coeffs : List (Residue p)} {gate : Gate p} (h : Gate.ofWires kind wires coeffs = .ok gate) :
    wires.length ≤ rowWidth := by
  rw [ofWires] at h
  cases hArity : kind.checkArity wires.length coeffs.length with
  | error fault =>
      rw [hArity] at h
      cases h
  | ok _ => exact Row.wires_le_of_checkArity hArity

/-- Merging leaves no more terms than asked for. -/
theorem Draft.reduce_length_le {keep : Nat} (hKeep : 1 ≤ keep) (draft : Draft p)
    (terms : List (Residue p × Signal)) : (draft.reduce keep terms).1.length ≤ keep := by
  cases terms with
  | nil => exact Nat.zero_le keep
  | cons head rest =>
      rw [reduce]
      induction rest generalizing draft head with
      | nil => exact hKeep
      | cons following rest ih =>
          rw [reduceFrom]
          split_ifs with hMerge
          · exact ih _ _
          · simp only [List.length_cons]
            omega

variable [Fact p.Prime] {table : VariableTable p}

theorem VariableTable.WellFormed.sturdy (hTable : table.WellFormed) : table.Sturdy where
  searches := Forest.searchAll_eq hTable.classes
  solves sought form policy label hForm := by
    have hSearched := compress_agrees hTable sought
    have hSize : (table.compress sought).size = table.size :=
      congrArg Array.size hSearched.values
    exact ⟨solve_eq hSearched.classes.wellFormed form policy label,
      fun stop hUnify => (unify_error (hSearched.wellFormed hTable) (hSize ▸ hForm) hUnify).1⟩

/-- Assertions that are offered leave the rules of the classes in place, also after a refusal. -/
theorem VariableTable.WellFormed.absorbAll (hTable : table.WellFormed) (settings : Settings)
    (offered : List (Assertion p)) : (table.absorbAll settings offered).2.WellFormed := by
  induction offered generalizing table with
  | nil => exact hTable
  | cons assertion rest ih =>
      rw [VariableTable.absorbAll]
      cases hAbsorb : table.absorb settings assertion with
      | error stop => exact hTable
      | ok absorption =>
          cases absorption with
          | absorbed next => exact ih (absorb_absorbed hTable hAbsorb).wellFormed
          | kept simpler => exact ih hTable

/-- A circuit made from a recording. -/
theorem Circuit.Realizes.sturdy {circuit : Circuit p} {settings : Settings}
    {accepted waiting : List (Assertion p)} {draft : Draft p}
    (h : circuit.Realizes settings table waiting draft)
    (hRecorded : Recorded accepted waiting table) : circuit.Sturdy := by
  have hTable := hRecorded.wellFormed
  have hDraft := h.draft_wellFormed hRecorded
  have hHalved := h.halved hDraft
  have hLive (x : Nat) (hx : table.Free x) : x < circuit.externalCount :=
    h.externalCount ▸ hx.lt_size hTable
  have hAux (k : Nat) (d : AuxDef p) (hDef : circuit.aux[k]? = some d) :
      ∀ term ∈ d.terms, term.2.InScope (· < circuit.externalCount) k := by
    rw [h.aux, Array.getElem?_toList] at hDef
    exact fun term hTerm => (hDraft.earlier k d hDef term hTerm).imp hLive
  have hGates (gate : Gate p) (hGate : gate ∈ circuit.gates) (i : Nat) (signal : Signal)
      (hSignal : circuit.signalOf (gate.wire i) = some signal) :
      signal.InScope (· < circuit.externalCount) circuit.aux.length :=
    (h.gates_inScope hTable hDraft hGate hSignal).imp hLive
  exact ⟨hHalved, exists_listing hHalved, fun _ _ => assign_error hAux hGates, inspect_eq hHalved⟩

/-- Nothing gives up. After any run of allocations and recorded assertions over allocated variables,
one more assertion is recorded, or does not fit its kind, or contradicts the classes. The classes
keep their rules whatever is offered to them. Definitions have at most two terms, merging keeps to
the registers of a half, and the wires of a gate to those of a row. The recording is finished, or it
is refused as a contradiction or for its number of wires, and never because of a gate that does not
fit. -/
theorem Recording.never_aborts {settings : Settings} {recording : Recording p}
    (hRun : Reached settings recording table) :
    (∀ assertion : Assertion p, (∀ x ∈ assertion.constraint.vars, x < table.size) →
      ∀ stop, (recording.add table assertion).1 = .error stop →
        (∃ kind wires coeffs, stop = .fault (.gateOverflow kind wires coeffs)) ∨
        ∃ statement, stop = .fault (.unsatisfied assertion.label statement [])) ∧
    (∀ offered, (table.absorbAll settings offered).2.Sturdy) ∧
    (∀ needed unified final,
      table.absorbAll settings recording.waiting.toList = (.ok (needed, unified), final) →
      ∀ d ∈ (Draft.empty.lowerAll settings final needed).2.aux.toList, d.terms.length ≤ 2) ∧
    (∀ (draft : Draft p) (keep : Nat) (terms : List (Residue p × Signal)), 1 ≤ keep →
      (draft.reduce keep terms).1.length ≤ keep) ∧
    (∀ (kind : GateKind) (wires : List UInt32) (coeffs : List (Residue p)) (gate : Gate p),
      Gate.ofWires kind wires coeffs = .ok gate → wires.length ≤ rowWidth) ∧
    ((∃ circuit final, recording.finalize table = (.ok circuit, final) ∧ circuit.Sturdy) ∨
      ∃ fault final, recording.finalize table = (.error (.fault fault), final) ∧
        ((∃ label statement values, fault = .unsatisfied label statement values) ∨
          fault.Overflows (recording.wireCount table))) := by
  obtain ⟨rfl, accepted, hAccepted⟩ := hRun.hasAccepted
  have hTable := hAccepted.recorded.wellFormed
  refine ⟨?_, fun offered => (hTable.absorbAll _ offered).sturdy, ?_,
    fun draft keep terms hKeep => draft.reduce_length_le hKeep terms,
    fun kind wires coeffs gate => Gate.wires_length_le_of_ofWires, ?_⟩
  · intro assertion hVars stop hStop
    rcases hAccepted.add hVars with ⟨next, table', hAdd, -⟩ | ⟨stop', next, hAdd, -, -, hDue⟩
    · rw [hAdd] at hStop
      cases hStop
    · rw [hAdd] at hStop
      cases hStop
      rcases hDue with ⟨fault, hArity, rfl⟩ | ⟨hContradicts, -⟩
      · obtain ⟨kind, wires, coeffs, rfl⟩ := Constraint.checkArity_error hArity
        exact .inl ⟨kind, wires, coeffs, rfl⟩
      · exact .inr hContradicts
  · intro needed unified final hAbsorb d hMem
    have hStart : Records recording.settings accepted ([] ++ recording.waiting.toList) table :=
      hAccepted
    rcases hStart.absorbAll with ⟨needed', unified', final', hResult, hRecords, -⟩ |
      ⟨label, statement, final', hResult, -⟩
    · cases hAbsorb.symm.trans hResult
      obtain ⟨k, hDef⟩ := List.mem_iff_getElem?.mp hMem
      rw [Array.getElem?_toList] at hDef
      exact (hRecords.recorded.lowerAll_wellFormed recording.settings).short k d hDef
    · cases hAbsorb.symm.trans hResult
  · rcases hAccepted.finalize_cases (fun _ => True) (by simp) with
      ⟨circuit, final, waiting, draft, hResult, hRecords, -, -, hRealizes, -⟩ |
      ⟨label, statement, values, final, hResult, -⟩ | ⟨fault, final, hResult, hOverflow⟩
    · exact .inl ⟨circuit, final, hResult, hRealizes.sturdy hRecords.recorded⟩
    · exact .inr ⟨_, final, hResult, .inl ⟨label, statement, values, rfl⟩⟩
    · exact .inr ⟨fault, final, hResult, .inr hOverflow⟩

/-- A variable is linked to the public input, another one is pinned, and a sum of both becomes an
operand. -/
theorem Recording.never_aborts_mixed :
    let table : VariableTable 7 := .allocated [none] [none, none, none]
    let first : Assertion 7 := ⟨none, .equal (.var 1) (.add (.var 0) 1)⟩
    let second : Assertion 7 := ⟨none, .equal (.scale 2 (.var 2)) (.const 3)⟩
    let third : Assertion 7 :=
      ⟨none, .product (.add (.var 1) (.add (.var 2) (.var 3))) (.var 3) (.var 0)⟩
    let linked := (start Settings.standard).add table first
    let pinned := linked.2.1.add linked.2.2 second
    let recorded := pinned.2.1.add pinned.2.2 third
    ∃ circuit final, recorded.2.1.finalize recorded.2.2 = (.ok circuit, final) ∧
      circuit.stats.unified = 2 ∧ circuit.aux.length = 1 ∧ circuit.Sturdy := by
  intro table first second third linked pinned recorded
  have : Fact (Nat.Prime 7) := ⟨by decide⟩
  have hTable : Reached Settings.standard (start Settings.standard) table :=
    .alloc (.alloc (.alloc (.allocPublic .start rfl none) none) none) none
  have hFirst : ∀ x ∈ first.constraint.vars, x < table.size := by decide
  have hSecond : ∀ x ∈ second.constraint.vars, x < linked.2.2.size := by decide +kernel
  have hThird : ∀ x ∈ third.constraint.vars, x < pinned.2.2.size := by decide +kernel
  have hRun : Reached Settings.standard recorded.2.1 recorded.2.2 :=
    .add (.add (.add hTable hFirst rfl) hSecond rfl) hThird rfl
  have hCounts : (recorded.2.1.finalize recorded.2.2).1.toOption.map
      (fun circuit => (circuit.stats.unified, circuit.aux.length)) = some (2, 1) := by
    decide +kernel
  obtain ⟨-, -, -, -, -, ⟨circuit, final, hResult, hSturdy⟩ | ⟨fault, final, hResult, -⟩⟩ :=
    never_aborts hRun
  · rw [hResult] at hCounts
    have hPair := Option.some.inj hCounts
    exact ⟨circuit, final, hResult, congrArg Prod.fst hPair, congrArg Prod.snd hPair, hSturdy⟩
  · rw [hResult] at hCounts
    cases hCounts

end ArithCircuit
