import ArithCircuit.Proofs.Witness

/-! Completeness of the lowering. Assertions with a common solution are all recorded and compiled,
and the solution fills rows that verification accepts. Hence an assertion is reported as unsatisfied
only when it has no solution in common with those accepted before. -/
namespace ArithCircuit

variable {p : Nat} [Modulus p] {accepted : List (Assertion p)} {table : VariableTable p}
  {recording : Recording p}

/-- A common solution of the accepted assertions fills the circuit with rows that verification
accepts. The witness has to know the variables of the assertions and the public inputs only. -/
theorem Recording.HasAccepted.finalize_satisfied [Fact p.Prime]
    (h : recording.HasAccepted table accepted) (known : Nat → Prop)
    (hKnown : ∀ a ∈ accepted, ∀ x ∈ a.constraint.vars, known x)
    {w : Nat → Residue p} (hHolds : ∀ a ∈ accepted, a.constraint.Holds w) :
    (∃ circuit final, recording.finalize table = (.ok circuit, final) ∧
      ∀ witness : Witness p, (∀ x < table.size, known x → witness.get x = .ok (w x)) →
        (∀ x < table.publicCount, witness.get x = .ok (w x)) →
        ∃ rows, circuit.assign witness = .ok rows ∧
          circuit.verify rows ((List.range table.publicCount).map w) = .ok ()) ∨
    ∃ fault final, recording.finalize table = (.error (.fault fault), final) ∧
      fault.Overflows (recording.wireCount table) := by
  rcases h.finalize_cases known hKnown with
    ⟨circuit, final, waiting, draft, hResult, hFinal, hValues, hPublic, hRealizes, hEmits⟩ |
    ⟨label, statement, given, final, -, hNever⟩ | hOverflow
  · refine .inl ⟨circuit, final, hResult, fun witness hWitness hInputs => ?_⟩
    obtain ⟨σ, rfl, hSolves⟩ := hEmits.wellFormed.exists_solves w
    obtain ⟨hConsistent, hWaiting⟩ := hFinal.recorded.complete _ hHolds
    have hSize : final.size = table.size := congrArg Array.size hValues
    have hAll : ∀ emission ∈ draft.emitted.toList, emission.Holds σ := by
      obtain ⟨added, hAdded, hIff⟩ := hEmits.emitted
      rw [hAdded]
      refine (hIff σ hSolves).mpr fun k hk _ => ?_
      rw [hConsistent.classValue_eq]
      exact hWaiting k hk
    rw [← hPublic] at hInputs ⊢
    rw [← hSize] at hWitness
    exact hRealizes.satisfied hEmits.wellFormed (fun _ => And.left)
      hFinal.recorded.wellFormed.publicCount_le hAll (fun x hx => hWitness x hx.1 hx.2) hInputs
  · exact absurd hHolds (hNever w)
  · exact .inr hOverflow

/-- An assertion of the right arity is refused only when it has no solution in common with the
accepted ones. -/
theorem Due.not_holds {assertion : Assertion p} {stop : Stop} (h : Due accepted assertion stop)
    (hArity : assertion.constraint.checkArity = .ok ()) (w : Nat → Residue p) :
    ¬ ∀ a ∈ accepted ++ [assertion], a.constraint.Holds w := by
  rcases h with ⟨fault, hFault, -⟩ | ⟨-, hNever⟩
  · rw [hArity] at hFault
    cases hFault
  · exact hNever w

/-- A refusal for its arity is not reported as an unsatisfied constraint. -/
theorem Due.not_holds_of_unsatisfied {assertion : Assertion p} {label : Option String}
    {statement : String} {given : List String}
    (h : Due accepted assertion (.fault (.unsatisfied label statement given)))
    (w : Nat → Residue p) : ¬ ∀ a ∈ accepted ++ [assertion], a.constraint.Holds w := by
  rcases h with ⟨fault, hFault, hStop⟩ | ⟨-, hNever⟩
  · obtain rfl := Stop.fault.inj hStop
    cases hConstraint : assertion.constraint with
    | raw kind operands coeffs =>
        rw [hConstraint] at hFault
        simp only [Constraint.checkArity, GateKind.checkArity] at hFault
        split_ifs at hFault
        cases hFault
    | _ =>
        rw [hConstraint] at hFault
        cases hFault
  · exact hNever w

namespace Recording

/-- Assertions with a common solution are all recorded. -/
theorem log_eq_of_holds {assertions : List (Assertion p)} {log : List (Outcome p)}
    (hLog : log.map Prod.fst = assertions)
    (hDue : ∀ before a stop after, log = before ++ (a, .error stop) :: after →
      Due (Outcome.accepted before) a stop)
    (hArity : ∀ a ∈ assertions, a.constraint.checkArity = .ok ()) {w : Nat → Residue p}
    (hHolds : ∀ a ∈ assertions, a.constraint.Holds w) :
    log = assertions.map fun a => (a, .ok ()) := by
  have hMem : ∀ outcome ∈ log, outcome.1 ∈ assertions := fun outcome hOutcome =>
    hLog ▸ List.mem_map_of_mem hOutcome
  have hOk : ∀ outcome ∈ log, (outcome.1, .ok ()) = outcome := by
    rintro ⟨a, result⟩ hOutcome
    cases result with
    | ok _ => rfl
    | error stop =>
        obtain ⟨before, after, hSplit⟩ := List.append_of_mem hOutcome
        refine absurd (fun b hb => hHolds b ?_)
          ((hDue before a stop after hSplit).not_holds (hArity a (hMem _ hOutcome)) w)
        rcases List.mem_append.mp hb with hb | hb
        · exact hMem (b, .ok ()) (hSplit ▸ List.mem_append_left _ (Outcome.mem_accepted.mp hb))
        · rw [List.mem_singleton.mp hb]
          exact hMem _ hOutcome
  rw [← hLog, List.map_map]
  calc
    log = log.map id := (List.map_id log).symm
    _ = log.map ((fun a => (a, .ok ())) ∘ Prod.fst) := (List.map_congr_left hOk).symm

/-- The lowering is complete. If an assignment passes the checks of all assertions, then they are
all recorded, a circuit is made unless it has too many wires for 32 bits, and any witness with the
values of the assignment fills rows that verification accepts for its public values. Conversely an
unsatisfied constraint is reported, by the recording or at its end, only when no assignment passes
the checks of all assertions accepted by then and of the one that is refused. -/
theorem finalize_complete [Fact p.Prime] (settings : Settings)
    (publics privates : List (Option (Residue p))) (assertions : List (Assertion p))
    (hVars : ∀ a ∈ assertions, ∀ x ∈ a.constraint.vars, x < publics.length + privates.length)
    {log : List (Outcome p)} {recording : Recording p} {table : VariableTable p}
    (hAdd : (start settings).addAll (.allocated publics privates) assertions =
      (log, recording, table)) :
    (∀ w : Nat → Residue p, (∀ a ∈ assertions, a.constraint.checkArity = .ok ()) →
      (∀ a ∈ assertions, a.Passes w) →
      log = assertions.map (fun a => (a, .ok ())) ∧
      (recording.wireCount table < 2 ^ 32 →
        ∃ circuit final, recording.finalize table = (.ok circuit, final) ∧
          ∀ witness : Witness p,
            (∀ x < publics.length + privates.length, witness.get x = .ok (w x)) →
            ∃ rows, circuit.assign witness = .ok rows ∧
              circuit.verify rows ((List.range publics.length).map w) = .ok ())) ∧
    (∀ before a label statement given after,
      log = before ++ (a, .error (.fault (.unsatisfied label statement given))) :: after →
      ∀ w, ∃ b ∈ Outcome.accepted before ++ [a], ¬ b.Passes w) ∧
    ∀ label statement given final,
      recording.finalize table = (.error (.fault (.unsatisfied label statement given)), final) →
      ∀ w, ∃ a ∈ Outcome.accepted log, ¬ a.Passes w := by
  obtain ⟨hLog, -, hRecords, hSize, hPublic, hDue⟩ := addAll_allocated hVars hAdd
  have hFailing {chosen : List (Assertion p)} {w : Nat → Residue p}
      (h : ¬ ∀ a ∈ chosen, a.constraint.Holds w) : ∃ a ∈ chosen, ¬ a.Passes w := by
    simpa [Assertion.passes_iff] using h
  refine ⟨fun w hArity hPasses => ?_, fun before a label statement given after hSplit w => ?_,
    fun label statement given final hResult w => hFailing fun hHolds => ?_⟩
  · have hHolds : ∀ a ∈ assertions, a.constraint.Holds w := fun a ha =>
      Assertion.passes_iff.mp (hPasses a ha)
    have hAll := log_eq_of_holds hLog hDue hArity hHolds
    refine ⟨hAll, fun hFits => ?_⟩
    have hAccepted : ∀ a ∈ Outcome.accepted log, a.constraint.Holds w := fun a ha =>
      hHolds a (hLog ▸ List.mem_map_of_mem (Outcome.mem_accepted.mp ha))
    rcases hRecords.finalize_satisfied (fun _ => True) (by simp) hAccepted with
      ⟨circuit, final, hResult, hRows⟩ | ⟨fault, final, -, number, hLarge, hLimit, -⟩
    · refine ⟨circuit, final, hResult, fun witness hWitness => ?_⟩
      rw [← hPublic]
      refine hRows witness (fun x hx _ => hWitness x (hSize ▸ hx)) fun x hx => hWitness x ?_
      exact (hPublic ▸ hx).trans_le (Nat.le_add_right _ _)
    · omega
  · exact hFailing ((hDue before a _ after hSplit).not_holds_of_unsatisfied w)
  · rcases hRecords.finalize_cases (fun _ => True) (by simp) with
      ⟨circuit, final', waiting, draft, hResult', -⟩ |
      ⟨label', statement', given', final', -, hNever⟩ |
      ⟨fault, final', hResult', number, -, -, hFault⟩
    · rw [hResult'] at hResult
      cases hResult
    · exact hNever w hHolds
    · rw [hResult', hFault] at hResult
      cases hResult

/-- An affine relation, a product of what it relates, a generic row that lacks operands, a range
check and a row of another kind over a sum, with a solution. -/
theorem finalize_complete_mixed :
    let assertions : List (Assertion 7) :=
      [⟨none, .equal (.var 1) (.add (.scale (.ofNat 7 2) (.var 0)) 1)⟩,
        ⟨none, .product (.var 0) (.var 1) (.var 2)⟩,
        ⟨none, .raw .generic [.var 0] [.ofNat 7 6, 0, 0, 0, 1]⟩,
        ⟨none, .range (.var 2) 2 .single⟩,
        ⟨none, .raw .xor16 [.add (.var 1) (.var 2)] []⟩]
    let recorded := (start Preset.aggressive.settings).addAll (.allocated [none] [none, none])
      assertions
    let w : Nat → Residue 7 := fun x => if x = 0 then 1 else .ofNat 7 3
    let witness : Witness 7 := ⟨#[some 1, some (.ofNat 7 3), some (.ofNat 7 3)], 1⟩
    (∀ a ∈ assertions, a.constraint.checkArity = .ok ()) ∧ (∀ a ∈ assertions, a.Passes w) ∧
      ∃ circuit final rows, recorded.2.1.finalize recorded.2.2 = (.ok circuit, final) ∧
        circuit.assign witness = .ok rows ∧ circuit.verify rows [1] = .ok () := by
  intro assertions recorded w witness
  have : Fact (Nat.Prime 7) := ⟨by decide⟩
  have hArity : ∀ a ∈ assertions, a.constraint.checkArity = .ok () := by decide
  have hPasses : ∀ a ∈ assertions, a.Passes w := by decide +kernel
  have hComplete := finalize_complete Preset.aggressive.settings [none] [none, none] assertions
    (by decide) (rfl : _ = (recorded.1, recorded.2.1, recorded.2.2))
  obtain ⟨-, hCircuit⟩ := hComplete.1 w hArity hPasses
  obtain ⟨circuit, final, hResult, hRows⟩ := hCircuit (by decide +kernel)
  obtain ⟨rows, hAssign, hVerify⟩ := hRows witness (by decide)
  exact ⟨hArity, hPasses, circuit, final, rows, hResult, hAssign, hVerify⟩

end Recording

end ArithCircuit
