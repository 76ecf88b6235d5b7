import ArithCircuit.Proofs.Compile
import ArithCircuit.Proofs.Lowering.RowCount

/-! Rows with and without optimization. What waits, and the variables that are not free any longer,
never exceed the plain rows of the accepted assertions. Without optimization these are the rows of
the circuit, except that a definition which occurs twice is stated once. -/
namespace ArithCircuit

namespace VariableTable

variable {p : Nat} [Modulus p] {table next : VariableTable p}

omit [Modulus p] in
theorem related_length_le (extra : List Nat) (h : next.related ⊆ extra ++ table.related) :
    next.related.length ≤ extra.length + table.related.length := by
  have hNodup : next.related.Nodup := List.nodup_range.filter _
  simpa using (hNodup.subperm h).length_le

theorem Unrelated.related_eq (h : table.Unrelated) : table.related = [] := by
  refine List.eq_nil_iff_forall_not_mem.mpr fun x hx => ?_
  obtain ⟨hLess, hBound⟩ := mem_related.mp hx
  exact hBound (h.free x hLess)

theorem Grows.related_length_le (h : table.Grows next) (hTable : table.WellFormed) :
    next.related.length ≤ table.related.length := by
  refine (VariableTable.related_length_le [] fun x hx => ?_).trans_eq (Nat.zero_add _)
  obtain ⟨hLess, hBound⟩ := mem_related.mp hx
  refine mem_related.mpr ⟨?_, fun hFree => hBound (h.free hFree)⟩
  rw [h.size] at hLess
  refine (Nat.lt_succ_iff_lt_or_eq.mp hLess).resolve_right fun hNew => hBound ?_
  rw [hNew]
  exact h.new_free hTable

/-- Absorbing an assertion binds one variable at most. -/
theorem Restricts.related_length_le {vars : List Nat} {condition : (Nat → Residue p) → Prop}
    (h : table.Restricts vars condition next) :
    next.related.length ≤ table.related.length + 1 := by
  obtain ⟨bound, hFree⟩ := h.free
  have hSize : next.size = table.size := congrArg Array.size h.values
  refine (VariableTable.related_length_le [bound] fun x hx => ?_).trans_eq
    (Nat.add_comm _ _)
  obtain ⟨hLess, hBound⟩ := mem_related.mp hx
  by_cases hx : x = bound
  · exact List.mem_append_left _ (List.mem_singleton.mpr hx)
  · refine List.mem_append_right _ (mem_related.mpr ⟨hSize ▸ hLess, fun hBefore => hBound ?_⟩)
    exact hFree x hx hBefore

/-- An assertion is offered in a form that takes no more plain rows. -/
theorem plainRows_offered_le (table : VariableTable p) (settings : Settings) (c : Constraint p) :
    (table.offered settings c).plainRows ≤ c.plainRows := by
  have hScaled (e : Expr p) (k : Residue p) : (e.scaleBy k).vars.length ≤ e.vars.length :=
    (e.vars_scaleBy_sublist k).length_le
  rw [offered]
  split_ifs
  · cases c with
    | product a b o =>
        simp only [linearize]
        split
        · have := hScaled b
          simp only [Constraint.plainRows, Constraint.auxDemand, Constraint.statements, Expr.merges]
          grind
        · have := hScaled a
          simp only [Constraint.plainRows, Constraint.auxDemand, Constraint.statements, Expr.merges]
          grind
        · exact Nat.le_refl _
    | square a b =>
        simp only [linearize]
        split
        · simp only [Constraint.plainRows, Constraint.auxDemand, Constraint.statements,
            Expr.merges, Expr.vars, List.length_nil]
          omega
        · exact Nat.le_refl _
    | equal a b => exact Nat.le_refl _
    | boolean a => exact Nat.le_refl _
    | range a bits variant => exact Nat.le_refl _
    | raw kind operands coeffs => exact Nat.le_refl _
  · exact Nat.le_refl _

theorem plainRows_pos_of_absorbed {settings : Settings} {assertion : Assertion p}
    (hAbsorb : table.absorb settings assertion = .ok (.absorbed next)) :
    1 ≤ assertion.constraint.plainRows := by
  have hOffered := plainRows_offered_le table settings assertion.constraint
  rcases absorb_cases table settings assertion with ⟨a, b, hEqual, -⟩ | hKept
  · rw [hEqual] at hOffered
    exact (Nat.le_add_left 1 _).trans hOffered
  · rw [hKept] at hAbsorb
    cases hAbsorb

/-- Without unification and folding an assertion is kept as it is. -/
theorem absorb_of_unoptimized {settings : Settings} (hFold : settings.foldConstants = false)
    (hUnify : settings.unification = .off) (assertion : Assertion p) :
    table.absorb settings assertion = .ok (.kept assertion) := by
  have hOffered : table.offered settings assertion.constraint = assertion.constraint := by
    simp [offered, hFold]
  rcases absorb_cases table settings assertion with
    ⟨a, b, -, ⟨stop, hResult, -⟩ | ⟨next, hResult, -⟩⟩ | hKept
  · simp [unify, hUnify] at hResult
  · simp [unify, hUnify] at hResult
  · rw [hKept, hOffered]

end VariableTable

namespace Records

variable {p : Nat} [Modulus p] {settings : Settings} {accepted waiting : List (Assertion p)}
  {table : VariableTable p}

/-- What waits takes no more plain rows than what was accepted, and an equality that was absorbed
pays for the variable that it binds. -/
theorem plainRows_le [Fact p.Prime] (h : Records settings accepted waiting table) :
    (waiting.map fun k => k.constraint.plainRows).sum + table.related.length ≤
      (accepted.map fun a => a.constraint.plainRows).sum := by
  induction h with
  | start hTable => simp [hTable.related_eq]
  | grow h hGrows _ ih =>
      exact (Nat.add_le_add_left (hGrows.related_length_le h.recorded.wellFormed) _).trans ih
  | offer _ _ _ ih =>
      simp only [List.map_append, List.sum_append]
      omega
  | absorbed h hAbsorb ih =>
      have hNext :=
        (VariableTable.absorb_absorbed h.recorded.wellFormed hAbsorb).related_length_le
      have hPays := VariableTable.plainRows_pos_of_absorbed hAbsorb
      simp only [List.map_append, List.sum_append, List.map_cons, List.sum_cons] at ih ⊢
      omega
  | kept _ hAbsorb ih =>
      obtain rfl := VariableTable.absorb_kept hAbsorb
      rename_i table assertion _
      have hOffered := table.plainRows_offered_le settings assertion.constraint
      simp only [List.map_append, List.sum_append, List.map_cons, List.sum_cons] at ih ⊢
      omega

/-- Without optimization all that was accepted waits, and no variables are related. -/
theorem unoptimized (hFold : settings.foldConstants = false)
    (hUnify : settings.unification = .off) (h : Records settings accepted waiting table) :
    waiting = accepted ∧ table.Unrelated := by
  induction h with
  | start hTable => exact ⟨rfl, hTable⟩
  | grow _ hGrows hNext ih => exact ⟨ih.1, hGrows.unrelated ih.2 hNext⟩
  | offer _ _ _ ih => exact ⟨by rw [ih.1], ih.2⟩
  | absorbed _ hAbsorb _ =>
      rw [VariableTable.absorb_of_unoptimized hFold hUnify] at hAbsorb
      cases hAbsorb
  | kept _ hAbsorb ih =>
      rw [VariableTable.absorb_of_unoptimized hFold hUnify] at hAbsorb
      cases hAbsorb
      exact ih

end Records

namespace Recording.HasAccepted

variable {p : Nat} [Modulus p] [Fact p.Prime] {accepted : List (Assertion p)}
  {table final : VariableTable p} {recording : Recording p} {circuit : Circuit p}

/-- With shared rows a circuit has at most the plain rows of the accepted assertions. -/
theorem gates_length_le (h : recording.HasAccepted table accepted)
    (hBatch : recording.settings.batchHalves = true)
    (hFinal : recording.finalize table = (.ok circuit, final)) :
    circuit.gates.length ≤
      table.publicCount + (accepted.map fun a => a.constraint.plainRows).sum := by
  obtain ⟨live, waiting, draft, hRecords, hPublic, hRealizes, -, hEmits⟩ := h.realizes hFinal
  have hLength := hRealizes.gates_length
  have hRows := Draft.lowerAll_rowCount_le hRecords.recorded.wellFormed
    (fun k hk => hRecords.recorded.waiting_lt hk) hRealizes.lowered
  -- a variable that is not free may take a row of its own, which the equality that bound it saves
  have hRelated := hEmits.wellFormed.relatedCount_le final
  have hPlain := hRecords.plainRows_le
  have hEmpty : (Draft.empty : Draft p).rowCount = 0 := rfl
  rw [hBatch, ← Draft.rowCount, hPublic] at hLength
  omega

/-- Without optimization a circuit has the rows that state its assertions and one for each auxiliary
variable, of which there are at most as many as the assertions demand. -/
theorem gates_length_of_debug (h : recording.HasAccepted table accepted)
    (hDebug : recording.settings = Preset.debug.settings)
    (hFinal : recording.finalize table = (.ok circuit, final)) :
    circuit.gates.length = table.publicCount + circuit.aux.length +
        (accepted.map fun a => a.constraint.statements).sum ∧
      circuit.aux.length ≤ (accepted.map fun a => a.constraint.auxDemand).sum := by
  obtain ⟨live, waiting, draft, hRecords, hPublic, hRealizes, -⟩ := h.realizes hFinal
  rw [hDebug] at hRecords hRealizes
  obtain ⟨rfl, hUnrelated⟩ := hRecords.unoptimized rfl rfl
  obtain ⟨hEmitted, hAux⟩ := Draft.lowerAll_unoptimized rfl rfl hUnrelated hRealizes.lowered
  have hLength := hRealizes.gates_length
  have hShared : Preset.debug.settings.batchHalves = false := rfl
  have hEmpty : (Draft.empty : Draft p).emitted.size = 0 ∧ (Draft.empty : Draft p).aux.size = 0 :=
    ⟨rfl, rfl⟩
  rw [hShared, Layout.allRows_length_of_unshared, Array.length_toList, hPublic] at hLength
  rw [hRealizes.aux, Array.length_toList]
  omega

end Recording.HasAccepted

namespace Recording

variable {p : Nat} [Modulus p]

/-- What optimization can cost. If the same assertions become circuits with shared rows and without
optimization, then the plain circuit has no more auxiliary variables than its assertions demand, and
the other one exceeds it in rows by no more than what is missing there: the definitions that
occurred twice in the plain circuit and were stated once. Where nothing is shared there, shared
rows, folding, normalizing and unification never cost a row. -/
theorem finalize_rows_le [Fact p.Prime] (settings : Settings)
    (hBatch : settings.batchHalves = true) (publics privates : List (Option (Residue p)))
    (assertions : List (Assertion p))
    (hVars : ∀ a ∈ assertions, ∀ x ∈ a.constraint.vars, x < publics.length + privates.length)
    {log plainLog : List (Outcome p)} {recording plainRecording : Recording p}
    {table plainTable final plainFinal : VariableTable p} {circuit plain : Circuit p}
    (hAdd : (start settings).addAll (.allocated publics privates) assertions =
      (log, recording, table))
    (hFinal : recording.finalize table = (.ok circuit, final))
    (hPlainAdd : (start Preset.debug.settings).addAll (.allocated publics privates) assertions =
      (plainLog, plainRecording, plainTable))
    (hAccepted : ∀ outcome ∈ plainLog, outcome.2 = .ok ())
    (hPlainFinal : plainRecording.finalize plainTable = (.ok plain, plainFinal)) :
    plain.aux.length ≤ (assertions.map fun a => a.constraint.auxDemand).sum ∧
      circuit.gates.length + plain.aux.length ≤
        plain.gates.length + (assertions.map fun a => a.constraint.auxDemand).sum := by
  obtain ⟨hLog, hSettings, hRecords, -, hPublic, -⟩ := addAll_allocated hVars hAdd
  obtain ⟨hPlainLog, hPlainSettings, hPlainRecords, -, hPlainPublic, -⟩ :=
    addAll_allocated hVars hPlainAdd
  have hRows := hRecords.gates_length_le (hSettings ▸ hBatch) hFinal
  have hPlainRows := hPlainRecords.gates_length_of_debug hPlainSettings hPlainFinal
  have hFewer : ((Outcome.accepted log).map fun a => a.constraint.plainRows).sum ≤
      (assertions.map fun a => a.constraint.plainRows).sum :=
    ((hLog ▸ Outcome.accepted_sublist log).map _).sum_le_sum fun _ _ => Nat.zero_le _
  have hPlainSum : (assertions.map fun a => a.constraint.plainRows).sum =
      (assertions.map fun a => a.constraint.auxDemand).sum +
        (assertions.map fun a => a.constraint.statements).sum := List.sum_map_add
  rw [Outcome.accepted_eq_map hAccepted, hPlainLog] at hPlainRows
  omega

/-- The one auxiliary variable that a product of a sum demands is there without optimization, so
the optimized circuit has no more rows. -/
theorem finalize_rows_le_product :
    let assertions : List (Assertion 7) :=
      [⟨none, .product (.add (.var 0) (.var 1)) (.var 2) (.var 3)⟩,
        ⟨none, .equal (.var 3) (.add (.var 1) 1)⟩, ⟨none, .boolean (.var 0)⟩]
    let recorded := fun preset : Preset =>
      (start preset.settings).addAll (.allocated [none] [none, none, none]) assertions
    (∀ outcome ∈ (recorded .debug).1, outcome.2 = .ok ()) ∧
      ∃ circuit final plain plainFinal,
        (recorded .aggressive).2.1.finalize (recorded .aggressive).2.2 = (.ok circuit, final) ∧
        (recorded .debug).2.1.finalize (recorded .debug).2.2 = (.ok plain, plainFinal) ∧
        circuit.gates.length + plain.aux.length ≤ plain.gates.length + 1 ∧
        plain.aux.length = 1 := by
  intro assertions recorded
  have : Fact (Nat.Prime 7) := ⟨by decide⟩
  have hAccepted : ∀ outcome ∈ (recorded .debug).1, outcome.2 = .ok () := by decide +kernel
  have hOptimized : ((recorded .aggressive).2.1.finalize (recorded .aggressive).2.2).1.isOk := by
    decide +kernel
  have hPlain : ((recorded .debug).2.1.finalize (recorded .debug).2.2).1.toOption.map
      (fun plain => plain.aux.length) = some 1 := by
    decide +kernel
  rcases hFinal : (recorded .aggressive).2.1.finalize (recorded .aggressive).2.2 with
    ⟨_ | circuit, final⟩
  · rw [hFinal] at hOptimized
    cases hOptimized
  rcases hPlainFinal : (recorded .debug).2.1.finalize (recorded .debug).2.2 with
    ⟨_ | plain, plainFinal⟩
  · rw [hPlainFinal] at hPlain
    cases hPlain
  rw [hPlainFinal] at hPlain
  have hRows := finalize_rows_le Preset.aggressive.settings rfl [none] [none, none, none] assertions
    (by decide) rfl hFinal rfl hAccepted hPlainFinal
  exact ⟨hAccepted, circuit, final, plain, plainFinal, rfl, rfl, hRows.2, Option.some.inj hPlain⟩

/-- Optimization can cost a row. Three sums begin alike, and without optimization they share what
merges their first three terms. Terms in normal order begin with the variables in which the last two
sums differ, so nothing is shared any longer. -/
theorem finalize_rows_exceed_debug :
    let sum : Expr 7 := .add (.add (.var 3) (.var 4)) (.var 5)
    let assertions : List (Assertion 7) :=
      [⟨none, .raw .xor16 [sum] []⟩, ⟨none, .raw .xor16 [.add sum (.var 0)] []⟩,
        ⟨none, .raw .xor16 [.add sum (.var 1)] []⟩]
    let recorded := fun preset : Preset => (start preset.settings).addAll
      (.allocated [] [none, none, none, none, none, none]) assertions
    let rows := fun preset => ((recorded preset).2.1.finalize (recorded preset).2.2).1.toOption.map
      fun circuit => circuit.gates.length
    (∀ preset ∈ Preset.all, ∀ outcome ∈ (recorded preset).1, outcome.2 = .ok ()) ∧
      rows .aggressive = some 8 ∧ rows .compatible = some 8 ∧ rows .debug = some 7 := by
  decide +kernel

end Recording

end ArithCircuit
