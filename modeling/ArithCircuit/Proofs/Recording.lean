import ArithCircuit.Proofs.Absorption

/-! Recording loses and adds nothing. The classes of the table together with the assertions that
still wait have exactly the solutions of the assertions that were accepted. This is an invariant of
single absorptions, and hence of whole recordings and of the last round of absorption. -/
namespace ArithCircuit

/-- What a recording has become of the accepted assertions: the table and the assertions that still
wait have together the solutions of the accepted ones. A solution of the equations that wait is one
of all accepted equations, whatever the other assertions say. -/
structure Recorded {p : Nat} [Modulus p] (accepted waiting : List (Assertion p))
    (table : VariableTable p) : Prop where
  wellFormed : table.WellFormed
  vars : ∀ a ∈ accepted, ∀ x ∈ a.constraint.vars, x < table.size
  waiting_vars : ∀ k ∈ waiting, ∀ x ∈ k.constraint.vars, ∃ a ∈ accepted, x ∈ a.constraint.vars
  arity : ∀ k ∈ waiting, k.constraint.checkArity = .ok ()
  closed : ∀ known : Nat → Prop, (∀ a ∈ accepted, ∀ x ∈ a.constraint.vars, known x) →
    table.ClosedUnder known
  sound : ∀ w, table.Consistent w →
    (∀ k ∈ waiting, k.constraint.isAlgebraic = true → k.constraint.Holds w) →
    ∀ a ∈ accepted, a.constraint.isAlgebraic = true → a.constraint.Holds w
  complete : ∀ w, (∀ a ∈ accepted, a.constraint.Holds w) →
    table.Consistent w ∧ ∀ k ∈ waiting, k.constraint.Holds w

namespace Recorded

variable {p : Nat} [Modulus p] {accepted before after : List (Assertion p)}
  {table next : VariableTable p} {settings : Settings} {assertion simpler : Assertion p}

/-- Over variables that are not related yet, nothing is recorded. -/
theorem nil (h : table.Unrelated) : Recorded [] [] table where
  wellFormed := h.wellFormed
  vars := by simp
  waiting_vars := by simp
  arity := by simp
  closed known _ x r c o hx hRep := by
    rw [h.rep_eq x] at hRep
    exact (Rep.var.inj hRep).1 ▸ hx
  sound := by simp
  complete w _ := ⟨fun x => by rw [h.rep_eq x, Rep.value_ofVar], by simp⟩

theorem waiting_lt {waiting : List (Assertion p)} (h : Recorded accepted waiting table)
    {k : Assertion p} (hk : k ∈ waiting) : ∀ x ∈ k.constraint.vars, x < table.size := by
  intro x hx
  obtain ⟨a, ha, hxa⟩ := h.waiting_vars k hk x hx
  exact h.vars a ha x hxa

/-- An assertion that is accepted waits at first. -/
theorem offer {waiting : List (Assertion p)} (h : Recorded accepted waiting table)
    (hVars : ∀ x ∈ assertion.constraint.vars, x < table.size)
    (hArity : assertion.constraint.checkArity = .ok ()) :
    Recorded (accepted ++ [assertion]) (waiting ++ [assertion]) table where
  wellFormed := h.wellFormed
  vars := by
    intro a ha
    rcases List.mem_append.mp ha with ha | ha
    · exact h.vars a ha
    · rw [List.mem_singleton.mp ha]
      exact hVars
  waiting_vars := by
    intro k hk x hx
    rcases List.mem_append.mp hk with hk | hk
    · obtain ⟨a, ha, hxa⟩ := h.waiting_vars k hk x hx
      exact ⟨a, List.mem_append_left _ ha, hxa⟩
    · exact ⟨k, List.mem_append_right _ hk, hx⟩
  arity := by
    intro k hk
    rcases List.mem_append.mp hk with hk | hk
    · exact h.arity k hk
    · rw [List.mem_singleton.mp hk]
      exact hArity
  closed known hKnown := h.closed known fun a ha => hKnown a (List.mem_append_left _ ha)
  sound := by
    intro w hw hWaiting a ha
    rcases List.mem_append.mp ha with ha | ha
    · exact h.sound w hw (fun k hk => hWaiting k (List.mem_append_left _ hk)) a ha
    · exact hWaiting a (List.mem_append_right _ ha)
  complete := by
    intro w hAccepted
    obtain ⟨hw, hWaiting⟩ := h.complete w fun a ha => hAccepted a (List.mem_append_left _ ha)
    refine ⟨hw, fun k hk => ?_⟩
    rcases List.mem_append.mp hk with hk | hk
    · exact hWaiting k hk
    · exact hAccepted k (List.mem_append_right _ hk)

/-- A waiting assertion that the classes absorb need not wait any longer. -/
theorem absorbed [Fact p.Prime] (h : Recorded accepted (before ++ assertion :: after) table)
    (hAbsorb : table.absorb settings assertion = .ok (.absorbed next)) :
    Recorded accepted (before ++ after) next := by
  have hMem : assertion ∈ before ++ assertion :: after := by simp
  have hNext := VariableTable.absorb_absorbed h.wellFormed hAbsorb
  have hSize : next.size = table.size := congrArg Array.size hNext.values
  have hSub : ∀ k ∈ before ++ after, k ∈ before ++ assertion :: after := by
    intro k hk
    rcases List.mem_append.mp hk with hk | hk
    · exact List.mem_append_left _ hk
    · exact List.mem_append_right _ (List.mem_cons_of_mem _ hk)
  refine ⟨hNext.wellFormed, fun a ha x hx => hSize ▸ h.vars a ha x hx,
    fun k hk => h.waiting_vars k (hSub k hk), fun k hk => h.arity k (hSub k hk),
    fun known hKnown => ?_, fun w hw hWaiting => ?_, fun w hAccepted => ?_⟩
  · refine hNext.closed known (fun x hx => ?_) (h.closed known hKnown)
    obtain ⟨a, ha, hxa⟩ := h.waiting_vars assertion hMem x hx
    exact hKnown a ha x hxa
  · obtain ⟨hTable, hHolds⟩ := (hNext.consistent_iff w).mp hw
    refine h.sound w hTable fun k hk => ?_
    rcases List.mem_append.mp hk with hk | hk
    · exact hWaiting k (List.mem_append_left _ hk)
    · rcases List.mem_cons.mp hk with rfl | hk
      · exact fun _ => hHolds
      · exact hWaiting k (List.mem_append_right _ hk)
  · obtain ⟨hw, hWaiting⟩ := h.complete w hAccepted
    exact ⟨(hNext.consistent_iff w).mpr ⟨hw, hWaiting assertion hMem⟩,
      fun k hk => hWaiting k (hSub k hk)⟩

/-- A waiting assertion may be replaced by the form in which it was offered. -/
theorem kept (h : Recorded accepted (before ++ assertion :: after) table)
    (hAbsorb : table.absorb settings assertion = .ok (.kept simpler)) :
    Recorded accepted (before ++ simpler :: after) table := by
  obtain rfl := VariableTable.absorb_kept hAbsorb
  have hMem : assertion ∈ before ++ assertion :: after := by simp
  have hOther : ∀ k, k ∈ before ∨ k ∈ after → k ∈ before ++ assertion :: after := by
    rintro k (hk | hk)
    · exact List.mem_append_left _ hk
    · exact List.mem_append_right _ (List.mem_cons_of_mem _ hk)
  refine ⟨h.wellFormed, h.vars, fun k hk x hx => ?_, fun k hk => ?_, h.closed,
    fun w hw hWaiting => ?_, fun w hAccepted => ?_⟩
  · rcases List.mem_append.mp hk with hk | hk
    · exact h.waiting_vars k (hOther k (.inl hk)) x hx
    · rcases List.mem_cons.mp hk with rfl | hk
      · exact h.waiting_vars assertion hMem x (VariableTable.offered_vars_subset _ _ _ hx)
      · exact h.waiting_vars k (hOther k (.inr hk)) x hx
  · rcases List.mem_append.mp hk with hk | hk
    · exact h.arity k (hOther k (.inl hk))
    · rcases List.mem_cons.mp hk with rfl | hk
      · exact VariableTable.offered_arity _ _ (h.arity assertion hMem)
      · exact h.arity k (hOther k (.inr hk))
  · refine h.sound w hw fun k hk hAlgebraic => ?_
    rcases List.mem_append.mp hk with hk | hk
    · exact hWaiting k (List.mem_append_left _ hk) hAlgebraic
    · rcases List.mem_cons.mp hk with rfl | hk
      · rw [← VariableTable.holds_offered_iff settings _ hw]
        refine hWaiting ⟨k.label, table.offered settings k.constraint⟩ (by simp) ?_
        rcases VariableTable.offered_cases table settings k.constraint with
          hSame | ⟨-, a, b, hEqual⟩
        · simpa only [hSame] using hAlgebraic
        · simp only [hEqual]
          rfl
      · exact hWaiting k (List.mem_append_right _ (List.mem_cons_of_mem _ hk)) hAlgebraic
  · obtain ⟨hw, hWaiting⟩ := h.complete w hAccepted
    refine ⟨hw, fun k hk => ?_⟩
    rcases List.mem_append.mp hk with hk | hk
    · exact hWaiting k (hOther k (.inl hk))
    · rcases List.mem_cons.mp hk with rfl | hk
      · exact (VariableTable.holds_offered_iff settings _ hw).mpr (hWaiting assertion hMem)
      · exact hWaiting k (hOther k (.inr hk))

/-- A waiting assertion is refused only when the accepted ones have no common solution. -/
theorem refused [Fact p.Prime] (h : Recorded accepted (before ++ assertion :: after) table)
    {stop : Stop} (hAbsorb : table.absorb settings assertion = .error stop) :
    (∃ statement, stop = .fault (.unsatisfied assertion.label statement [])) ∧
      ∀ w, ¬ ∀ a ∈ accepted, a.constraint.Holds w := by
  have hMem : assertion ∈ before ++ assertion :: after := by simp
  obtain ⟨hStop, hNever⟩ := VariableTable.absorb_error h.wellFormed (h.waiting_lt hMem) hAbsorb
  refine ⟨hStop, fun w hAccepted => ?_⟩
  obtain ⟨hw, hWaiting⟩ := h.complete w hAccepted
  exact hNever w hw (hWaiting assertion hMem)

/-- A new variable is in no assertion and no class yet. -/
theorem grow {waiting : List (Assertion p)} (h : Recorded accepted waiting table)
    (hGrows : table.Grows next) (hNext : next.WellFormed) : Recorded accepted waiting next := by
  have hRep := hGrows.rep h.wellFormed
  have hConsistent (w : Nat → Residue p) : next.Consistent w ↔ table.Consistent w :=
    forall_congr' fun x => by rw [hRep x]
  refine ⟨hNext, fun a ha x hx => ?_, h.waiting_vars, h.arity, fun known hKnown x r c o hx hr => ?_,
    fun w hw => h.sound w ((hConsistent w).mp hw), fun w hw => ?_⟩
  · rw [hGrows.size]
    exact (h.vars a ha x hx).trans (Nat.lt_succ_self _)
  · exact h.closed known hKnown x r c o hx ((hRep x).symm.trans hr)
  · obtain ⟨hTable, hWaiting⟩ := h.complete w hw
    exact ⟨(hConsistent w).mpr hTable, hWaiting⟩

end Recorded

/-- What recording can reach under some settings: assertions that were accepted, assertions that
wait, and a table. Variables may be allocated at any time, and the assertion that is offered to the
classes need not be the last one. -/
inductive Records {p : Nat} [Modulus p] (settings : Settings) :
    List (Assertion p) → List (Assertion p) → VariableTable p → Prop
  | start {table : VariableTable p} (h : table.Unrelated) : Records settings [] [] table
  | grow {accepted waiting : List (Assertion p)} {table next : VariableTable p}
    (h : Records settings accepted waiting table) (hGrows : table.Grows next)
    (hNext : next.WellFormed) : Records settings accepted waiting next
  | offer {accepted waiting : List (Assertion p)} {table : VariableTable p}
    {assertion : Assertion p} (h : Records settings accepted waiting table)
    (hVars : ∀ x ∈ assertion.constraint.vars, x < table.size)
    (hArity : assertion.constraint.checkArity = .ok ()) :
    Records settings (accepted ++ [assertion]) (waiting ++ [assertion]) table
  | absorbed {accepted before after : List (Assertion p)} {table next : VariableTable p}
    {assertion : Assertion p} (h : Records settings accepted (before ++ assertion :: after) table)
    (hAbsorb : table.absorb settings assertion = .ok (.absorbed next)) :
    Records settings accepted (before ++ after) next
  | kept {accepted before after : List (Assertion p)} {table : VariableTable p}
    {assertion simpler : Assertion p}
    (h : Records settings accepted (before ++ assertion :: after) table)
    (hAbsorb : table.absorb settings assertion = .ok (.kept simpler)) :
    Records settings accepted (before ++ simpler :: after) table

namespace Records

variable {p : Nat} [Modulus p] [Fact p.Prime] {settings : Settings}
  {accepted before waiting : List (Assertion p)} {table : VariableTable p}
  {assertion : Assertion p}

/-- Everything that recording reaches keeps the solutions. -/
theorem recorded (h : Records settings accepted waiting table) :
    Recorded accepted waiting table := by
  induction h with
  | start hTable => exact .nil hTable
  | grow _ hGrows hNext ih => exact ih.grow hGrows hNext
  | offer _ hVars hArity ih => exact ih.offer hVars hArity
  | absorbed _ hAbsorb ih => exact ih.absorbed hAbsorb
  | kept _ hAbsorb ih => exact ih.kept hAbsorb

/-- The last round of absorption is refused only when the accepted assertions have no common
solution. Assertions before the ones that are offered stay as they are. -/
theorem absorbAll (h : Records settings accepted (before ++ waiting) table) :
    (∃ remaining unified final, VariableTable.absorbAll settings table waiting =
        (.ok (remaining, unified), final) ∧ Records settings accepted (before ++ remaining) final ∧
        final.values = table.values ∧ final.publicCount = table.publicCount) ∨
    ∃ label statement final, VariableTable.absorbAll settings table waiting =
        (.error (.fault (.unsatisfied label statement [])), final) ∧
        ∀ w, ¬ ∀ a ∈ accepted, a.constraint.Holds w := by
  induction waiting generalizing before table with
  | nil => exact .inl ⟨[], 0, table, rfl, h, rfl, rfl⟩
  | cons assertion rest ih =>
      cases hAbsorb : table.absorb settings assertion with
      | error stop =>
          obtain ⟨⟨statement, rfl⟩, hNever⟩ := h.recorded.refused hAbsorb
          exact .inr ⟨assertion.label, statement, table,
            by rw [VariableTable.absorbAll, hAbsorb], hNever⟩
      | ok absorption =>
          cases absorption with
          | absorbed next =>
              have hNext := VariableTable.absorb_absorbed h.recorded.wellFormed hAbsorb
              rcases ih (h.absorbed hAbsorb) with
                ⟨remaining, unified, final, hRest, hFinal, hValues, hPublic⟩ |
                ⟨label, statement, final, hRest, hNever⟩
              · refine .inl ⟨remaining, unified + 1, final, ?_, hFinal,
                  hValues.trans hNext.values, hPublic.trans hNext.publicCount⟩
                rw [VariableTable.absorbAll, hAbsorb]
                simp only [hRest, Except.map]
              · refine .inr ⟨label, statement, final, ?_, hNever⟩
                rw [VariableTable.absorbAll, hAbsorb]
                simp only [hRest, Except.map]
          | kept k =>
              have hKept := h.kept hAbsorb
              rw [List.append_cons] at hKept
              rcases ih hKept with
                ⟨remaining, unified, final, hRest, hFinal, hValues, hPublic⟩ |
                ⟨label, statement, final, hRest, hNever⟩
              · refine .inl ⟨k :: remaining, unified, final, ?_, by simpa using hFinal, hValues,
                  hPublic⟩
                rw [VariableTable.absorbAll, hAbsorb]
                simp only [hRest, Except.map]
              · refine .inr ⟨label, statement, final, ?_, hNever⟩
                rw [VariableTable.absorbAll, hAbsorb]
                simp only [hRest, Except.map]

end Records

/-- A refusal is due if the assertion does not fit its kind, or contradicts the accepted ones. -/
def Due {p : Nat} [Modulus p] (accepted : List (Assertion p)) (assertion : Assertion p)
    (stop : Stop) : Prop :=
  (∃ fault, assertion.constraint.checkArity = .error fault ∧ stop = .fault fault) ∨
    (∃ statement, stop = .fault (.unsatisfied assertion.label statement [])) ∧
      ∀ w, ¬ ∀ a ∈ accepted ++ [assertion], a.constraint.Holds w

/-- The records of a recording: what it has accepted so far under its settings. -/
abbrev Recording.HasAccepted {p : Nat} [Modulus p] (recording : Recording p)
    (table : VariableTable p) (accepted : List (Assertion p)) : Prop :=
  Records recording.settings accepted recording.waiting.toList table

/-- Recording one more assertion. One that is refused leaves the table and what waits unchanged. -/
theorem Recording.HasAccepted.add {p : Nat} [Modulus p] [Fact p.Prime] {recording : Recording p}
    {table : VariableTable p} {accepted : List (Assertion p)} {assertion : Assertion p}
    (h : recording.HasAccepted table accepted)
    (hVars : ∀ x ∈ assertion.constraint.vars, x < table.size) :
    (∃ recording' table', recording.add table assertion = (.ok (), recording', table') ∧
      assertion.constraint.checkArity = .ok () ∧ recording'.settings = recording.settings ∧
      recording'.HasAccepted table' (accepted ++ [assertion]) ∧
      table'.values = table.values ∧ table'.publicCount = table.publicCount) ∨
    (∃ stop recording', recording.add table assertion = (.error stop, recording', table) ∧
      recording'.settings = recording.settings ∧ recording'.HasAccepted table accepted ∧
      Due accepted assertion stop) := by
  obtain ⟨settings, waiting, recorded, unified⟩ := recording
  cases hArity : assertion.constraint.checkArity with
  | error fault =>
      exact .inr ⟨.fault fault, ⟨settings, waiting, recorded, unified⟩,
        by simp only [Recording.add, hArity], rfl, h, .inl ⟨fault, hArity, rfl⟩⟩
  | ok _ =>
      have hOffer := h.offer hVars hArity
      cases hAbsorb : table.absorb settings assertion with
      | error stop =>
          exact .inr ⟨stop, ⟨settings, waiting, recorded + 1, unified⟩,
            by simp only [Recording.add, hArity, hAbsorb], rfl, h,
            .inr (hOffer.recorded.refused hAbsorb)⟩
      | ok absorption =>
          cases absorption with
          | absorbed next =>
              have hNext := VariableTable.absorb_absorbed h.recorded.wellFormed hAbsorb
              refine .inl ⟨⟨settings, waiting, recorded + 1, unified + 1⟩, next,
                by simp only [Recording.add, hArity, hAbsorb], rfl, rfl, ?_, hNext.values,
                hNext.publicCount⟩
              simpa [Recording.HasAccepted] using hOffer.absorbed hAbsorb
          | kept k =>
              refine .inl ⟨⟨settings, waiting.push k, recorded + 1, unified⟩, table,
                by simp only [Recording.add, hArity, hAbsorb], rfl, rfl, ?_, rfl, rfl⟩
              simpa [Recording.HasAccepted] using hOffer.kept hAbsorb

/-- An assertion that was offered, and what the recording answered. -/
abbrev Outcome (p : Nat) := Assertion p × Except Stop Unit

namespace Outcome

variable {p : Nat}

/-- The assertions that were recorded. -/
def accepted (log : List (Outcome p)) : List (Assertion p) :=
  (log.filter fun outcome => outcome.2.isOk).map Prod.fst

@[simp] theorem accepted_nil : accepted ([] : List (Outcome p)) = [] := rfl

@[simp] theorem accepted_ok (a : Assertion p) (log : List (Outcome p)) :
    accepted ((a, .ok ()) :: log) = a :: accepted log := rfl

@[simp] theorem accepted_error (a : Assertion p) (stop : Stop) (log : List (Outcome p)) :
    accepted ((a, .error stop) :: log) = accepted log := rfl

theorem mem_accepted {log : List (Outcome p)} {assertion : Assertion p} :
    assertion ∈ accepted log ↔ (assertion, .ok ()) ∈ log := by
  simp only [accepted, List.mem_map, List.mem_filter]
  constructor
  · rintro ⟨⟨a, result⟩, ⟨hMem, hOk⟩, rfl⟩
    cases result with
    | ok value => exact hMem
    | error stop => cases hOk
  · exact fun h => ⟨(assertion, .ok ()), ⟨h, rfl⟩, rfl⟩

theorem accepted_sublist (log : List (Outcome p)) : (accepted log).Sublist (log.map Prod.fst) :=
  List.filter_sublist.map _

theorem accepted_eq_map {log : List (Outcome p)} (h : ∀ outcome ∈ log, outcome.2 = .ok ()) :
    accepted log = log.map Prod.fst := by
  rw [accepted, List.filter_eq_self.mpr fun outcome hOutcome => by rw [h outcome hOutcome]; rfl]

end Outcome

namespace Recording

variable {p : Nat} [Modulus p]

/-- Offer assertions one after the other, going on after a refusal. -/
def addAll : Recording p → VariableTable p → List (Assertion p) →
    List (Outcome p) × Recording p × VariableTable p
  | recording, table, [] => ([], recording, table)
  | recording, table, assertion :: rest =>
    let (result, recording, table) := recording.add table assertion
    let (log, final) := addAll recording table rest
    ((assertion, result) :: log, final)

/-- What has been accepted after any number of assertions over the variables of the table. Every
refusal on the way was due. -/
theorem addAll_cases [Fact p.Prime] {accepted : List (Assertion p)} {recording : Recording p}
    {table : VariableTable p} (assertions : List (Assertion p))
    (h : recording.HasAccepted table accepted)
    (hVars : ∀ a ∈ assertions, ∀ x ∈ a.constraint.vars, x < table.size) :
    ∃ log recording' table', recording.addAll table assertions = (log, recording', table') ∧
      log.map Prod.fst = assertions ∧ recording'.settings = recording.settings ∧
      recording'.HasAccepted table' (accepted ++ Outcome.accepted log) ∧
      table'.values = table.values ∧ table'.publicCount = table.publicCount ∧
      ∀ before a stop after, log = before ++ (a, .error stop) :: after →
        Due (accepted ++ Outcome.accepted before) a stop := by
  induction assertions generalizing accepted recording table with
  | nil =>
      exact ⟨[], recording, table, rfl, rfl, rfl, by simpa using h, rfl, rfl, by simp⟩
  | cons assertion rest ih =>
      have hFirst := hVars assertion List.mem_cons_self
      have hRest : ∀ a ∈ rest, ∀ x ∈ a.constraint.vars, x < table.size :=
        fun a ha => hVars a (List.mem_cons_of_mem _ ha)
      rcases h.add hFirst with
        ⟨recording', table', hAdd, -, hSettings, hNext, hValues, hPublic⟩ |
        ⟨stop, recording', hAdd, hSettings, hNext, hDue⟩
      · have hSize : table'.size = table.size := congrArg Array.size hValues
        obtain ⟨log, final, finalTable, hLog, hFst, hFinalSettings, hFinal, hFinalValues,
          hFinalPublic, hRefusals⟩ := ih hNext (hSize ▸ hRest)
        refine ⟨(assertion, .ok ()) :: log, final, finalTable, ?_, ?_,
          hFinalSettings.trans hSettings, ?_, hFinalValues.trans hValues,
          hFinalPublic.trans hPublic, fun before a stop after hSplit => ?_⟩
        · simp only [addAll, hAdd, hLog]
        · rw [List.map_cons, hFst]
        · simpa using hFinal
        · cases before with
          | nil => cases hSplit
          | cons first before =>
              obtain ⟨rfl, hTail⟩ := List.cons.inj hSplit
              simpa using hRefusals before a stop after hTail
      · obtain ⟨log, final, finalTable, hLog, hFst, hFinalSettings, hFinal, hFinalValues,
          hFinalPublic, hRefusals⟩ := ih hNext hRest
        refine ⟨(assertion, .error stop) :: log, final, finalTable, ?_, ?_,
          hFinalSettings.trans hSettings, ?_, hFinalValues, hFinalPublic,
          fun before a stop' after hSplit => ?_⟩
        · simp only [addAll, hAdd, hLog]
        · rw [List.map_cons, hFst]
        · simpa using hFinal
        · cases before with
          | nil =>
              cases hSplit
              simpa using hDue
          | cons first before =>
              obtain ⟨rfl, hTail⟩ := List.cons.inj hSplit
              simpa using hRefusals before a stop' after hTail

/-- A recording from its start, over variables that have been allocated. -/
theorem addAll_allocated [Fact p.Prime] {settings : Settings}
    {publics privates : List (Option (Residue p))} {assertions : List (Assertion p)}
    (hVars : ∀ a ∈ assertions, ∀ x ∈ a.constraint.vars, x < publics.length + privates.length)
    {log : List (Outcome p)} {recording : Recording p} {table : VariableTable p}
    (hAdd : (start settings).addAll (.allocated publics privates) assertions =
      (log, recording, table)) :
    log.map Prod.fst = assertions ∧ recording.settings = settings ∧
      recording.HasAccepted table (Outcome.accepted log) ∧
      table.size = publics.length + privates.length ∧ table.publicCount = publics.length ∧
      ∀ before a stop after, log = before ++ (a, .error stop) :: after →
        Due (Outcome.accepted before) a stop := by
  obtain ⟨hUnrelated, hSize, hPublic⟩ := VariableTable.allocated_unrelated publics privates
  have hStart : (start settings : Recording p).HasAccepted (.allocated publics privates) [] :=
    .start hUnrelated
  obtain ⟨log', recording', table', hAdd', hLog, hSettings, hAccepted, hValues, hCount,
    hRefusals⟩ := addAll_cases assertions hStart (hSize ▸ hVars)
  obtain ⟨rfl, rfl, rfl⟩ : log' = log ∧ recording' = recording ∧ table' = table := by
    simpa using hAdd'.symm.trans hAdd
  exact ⟨hLog, hSettings, hAccepted, (congrArg Array.size hValues).trans hSize,
    hCount.trans hPublic, hRefusals⟩

end Recording

end ArithCircuit
