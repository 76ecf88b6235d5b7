import ArithCircuit.Proofs.Alike

/-! The spelling of operands does not matter. Two recordings of constraints of the same shape, whose
operands are different ways to write the same functions, run in lockstep: the classes look at
operands only through their normal forms, which are unique. At every point the two tables have the
same representatives, and with normal operands both recordings become the same circuit. -/
namespace ArithCircuit

/-- Two ways to write the same affine function of the first `size` variables. They may order, nest,
repeat and cancel terms differently. -/
structure Expr.Synonyms {p : Nat} (size : Nat) (e e' : Expr p) : Prop where
  vars : ∀ x ∈ e.vars, x < size
  vars' : ∀ x ∈ e'.vars, x < size
  value : ∀ w, e.value w = e'.value w

namespace Expr.Synonyms

variable {p : Nat} {size : Nat}

theorem const (size : Nat) (k : Residue p) : Synonyms size (.const k) (.const k) where
  vars x hx := by cases hx
  vars' x hx := by cases hx
  value w := rfl

theorem scaleBy [Modulus p] {e e' : Expr p} (h : Synonyms size e e') (k : Residue p) :
    Synonyms size (e.scaleBy k) (e'.scaleBy k) where
  vars x hx := h.vars x ((vars_scaleBy_sublist e k).subset hx)
  vars' x hx := h.vars' x ((vars_scaleBy_sublist e' k).subset hx)
  value w := by rw [value_scaleBy, value_scaleBy, h.value]

end Expr.Synonyms

theorem Constraint.Alike.checkArity {p : Nat} {same : Expr p → Expr p → Prop}
    {c c' : Constraint p} (h : c.Alike same c') : c.checkArity = c'.checkArity := by
  cases h with
  | raw kind hs coeffs => simp only [Constraint.checkArity, hs.length_eq]
  | _ => rfl

namespace VariableTable

/-- Two tables over the same variables in which every variable has the same representative. Their
classes may be linked along different paths. -/
structure Twins {p : Nat} [Modulus p] (size : Nat) (table table' : VariableTable p) : Prop where
  wellFormed : table.WellFormed
  wellFormed' : table'.WellFormed
  size_eq : table.size = size
  size_eq' : table'.size = size
  publicCount : table.publicCount = table'.publicCount
  rep : ∀ x, table.rep x = table'.rep x

namespace Twins

variable {p : Nat} [Modulus p] {size : Nat} {table table' : VariableTable p}

theorem refl (hTable : table.WellFormed) : Twins table.size table table :=
  ⟨hTable, hTable, rfl, rfl, rfl, fun _ => rfl⟩

/-- Forms that take the same values resolve to the same normal form in twin tables. -/
theorem normalize_resolve (h : Twins size table table') {form form' : LinearForm p}
    (hValue : ∀ w, form.value w = form'.value w) :
    (table.resolve form).normalize = (table'.resolve form').normalize := by
  have hClass (u : Nat → Residue p) : table.classValue u = table'.classValue u := by
    funext x
    rw [classValue, classValue, h.rep]
  apply LinearForm.normalize_eq_of_value_eq
  intro u
  rw [value_resolve, value_resolve, hClass, hValue]

theorem resolvesAlike (h : Twins size table table') :
    table.ResolvesAlike true table' (Expr.Synonyms size) where
  operand he := h.normalize_resolve fun w => by
    rw [Expr.value_linear, Expr.value_linear, he.value]
  difference ha hb := h.normalize_resolve fun w => by
    simp only [LinearForm.value_sub, Expr.value_linear, ha.value, hb.value]
  zero := .const size 0

theorem constantOf? (h : Twins size table table') {e e' : Expr p} (he : e.Synonyms size e') :
    table.constantOf? e = table'.constantOf? e' := by
  have hValue (w : Nat → Residue p) :
      e.linear.normalize.value w = e'.linear.normalize.value w := by
    simp only [LinearForm.value_normalize, Expr.value_linear, he.value]
  rw [VariableTable.constantOf?, VariableTable.constantOf?, h.normalize_resolve hValue]

/-- Twin tables turn the same products into equalities. -/
theorem linearize (h : Twins size table table') {c c' : Constraint p}
    (hc : c.Alike (Expr.Synonyms size) c') :
    (table.linearize c).Alike (Expr.Synonyms size) (table'.linearize c') := by
  cases hc with
  | product ha hb ho =>
      simp only [VariableTable.linearize, h.constantOf? ha, h.constantOf? hb]
      split
      · exact .equal (hb.scaleBy _) ho
      · exact .equal (ha.scaleBy _) ho
      · exact .product ha hb ho
  | square ha hb =>
      simp only [VariableTable.linearize, h.constantOf? ha]
      split
      · exact .equal (.const size _) hb
      · exact .square ha hb
  | equal ha hb => exact .equal ha hb
  | boolean ha => exact .boolean ha
  | range ha bits variant => exact .range ha bits variant
  | raw kind hs coeffs => exact .raw kind hs coeffs

theorem offered (h : Twins size table table') (settings : Settings) {c c' : Constraint p}
    (hc : c.Alike (Expr.Synonyms size) c') :
    (table.offered settings c).Alike (Expr.Synonyms size) (table'.offered settings c') := by
  rw [VariableTable.offered, VariableTable.offered]
  split_ifs
  · exact h.linearize hc
  · exact hc

variable [Fact p.Prime]

/-- Shortening paths, of whichever variables, does not tell twins apart. -/
theorem compress (h : Twins size table table') (form form' : LinearForm p) :
    Twins size (table.compress form) (table'.compress form') := by
  have hShort := compress_agrees h.wellFormed form
  have hShort' := compress_agrees h.wellFormed' form'
  refine ⟨hShort.wellFormed h.wellFormed, hShort'.wellFormed h.wellFormed', h.size_eq, h.size_eq',
    h.publicCount, fun x => ?_⟩
  rw [hShort.rep, hShort'.rep, h.rep]

omit [Fact p.Prime] in
theorem direct (h : Twins size table table') {x : Nat} {rep : Rep p}
    (hPrivate : table.publicCount ≤ x) (hFree : table.Free x) (hFree' : table'.Free x)
    (hOlder : table.Older x rep) (hOlder' : table'.Older x rep) :
    Twins size (table.direct x rep) (table'.direct x rep) := by
  refine ⟨direct_wellFormed h.wellFormed hPrivate hOlder,
    direct_wellFormed h.wellFormed' (h.publicCount ▸ hPrivate) hOlder', h.size_eq, h.size_eq',
    h.publicCount, fun y => ?_⟩
  rw [rep_direct h.wellFormed hFree hOlder, rep_direct h.wellFormed' hFree' hOlder', h.rep]

/-- A variable is free exactly if it represents itself. -/
theorem free_iff (h : Twins size table table') (x : Nat) : table.Free x ↔ table'.Free x := by
  constructor
  · intro hFree
    have hx := (hFree.lt_size h.wellFormed).trans_eq (h.size_eq.trans h.size_eq'.symm)
    exact (rep_var h.wellFormed' hx ((h.rep x).symm.trans (rep_of_free hFree))).1
  · intro hFree
    have hx := (hFree.lt_size h.wellFormed').trans_eq (h.size_eq'.trans h.size_eq.symm)
    exact (rep_var h.wellFormed hx ((h.rep x).trans (rep_of_free hFree))).1

theorem pin (h : Twins size table table') {x : Nat} (hPrivate : table.publicCount ≤ x)
    (k : Residue p) :
    (table.pin x k = .error .abort ∧ table'.pin x k = .error .abort) ∨
      ∃ next next', table.pin x k = .ok next ∧ table'.pin x k = .ok next' ∧
        Twins size next next' := by
  by_cases hFree : table.Free x
  · have hFree' := (h.free_iff x).mp hFree
    exact .inr ⟨_, _, pin_of_free hFree k, pin_of_free hFree' k,
      h.direct hPrivate hFree hFree' (by rintro r c o ⟨⟩) (by rintro r c o ⟨⟩)⟩
  · exact .inl ⟨pin_of_not_free hFree k, pin_of_not_free (mt (h.free_iff x).mpr hFree) k⟩

theorem link (h : Twins size table table') {child parent : Nat} (hOrder : parent < child)
    {coeff : Residue p} (hCoeff : coeff ≠ 0) (hPrivate : table.publicCount ≤ child)
    (offset : Residue p) :
    (table.link child parent coeff offset = .error .abort ∧
        table'.link child parent coeff offset = .error .abort) ∨
      ∃ next next', table.link child parent coeff offset = .ok next ∧
        table'.link child parent coeff offset = .ok next' ∧ Twins size next next' := by
  have hIff : table.Free child ∧ table.Free parent ↔ table'.Free child ∧ table'.Free parent :=
    and_congr (h.free_iff child) (h.free_iff parent)
  by_cases hFree : table.Free child ∧ table.Free parent
  · obtain ⟨hChild', hParent'⟩ := hIff.mp hFree
    refine .inr ⟨_, _, link_of_free hOrder hFree.1 hFree.2 hCoeff offset,
      link_of_free hOrder hChild' hParent' hCoeff offset,
      h.direct hPrivate hFree.1 hChild' ?_ ?_⟩
    · rintro r c o ⟨⟩
      exact ⟨hOrder, hCoeff, hFree.2⟩
    · rintro r c o ⟨⟩
      exact ⟨hOrder, hCoeff, hParent'⟩
  · exact .inl ⟨link_of_not_free hFree _ _, link_of_not_free (mt hIff.mpr hFree) _ _⟩

/-- Twin tables refuse, leave or absorb an equation alike, however it is written. -/
theorem unify (h : Twins size table table') {form form' : LinearForm p}
    (hValue : ∀ w, form.value w = form'.value w) (policy : Unification)
    (label label' : Option String) :
    (∃ stop stop', table.unify form policy label = .error stop ∧
      table'.unify form' policy label' = .error stop' ∧ (label = label' → stop = stop')) ∨
    (table.unify form policy label = .ok none ∧ table'.unify form' policy label' = .ok none) ∨
    ∃ next next', table.unify form policy label = .ok (some next) ∧
      table'.unify form' policy label' = .ok (some next') ∧ Twins size next next' := by
  have hNormal := h.normalize_resolve hValue
  have hSorted := LinearForm.normalize_sorted (table.resolve form)
  have hNonzero := LinearForm.normalize_coeff_ne_zero (table.resolve form)
  have hPublic (x : Nat) : table'.isPublic x = table.isPublic x := by
    rw [isPublic, isPublic, h.publicCount]
  have hShort := h.compress form form'
  simp only [VariableTable.unify, ← hNormal, hPublic]
  generalize (table.resolve form).normalize = normal at hSorted hNonzero ⊢
  obtain ⟨terms, constant⟩ := normal
  by_cases hOff : policy = .off
  · exact .inr (.inl ⟨if_pos hOff, if_pos hOff⟩)
  simp only [if_neg hOff]
  rcases terms with _ | ⟨⟨cu, u⟩, _ | ⟨⟨cv, v⟩, _ | ⟨third, rest⟩⟩⟩
  -- no variable is left
  · dsimp only
    split_ifs
    · exact .inr (.inr ⟨_, _, rfl, rfl, hShort⟩)
    · exact .inl ⟨_, _, rfl, rfl, fun hLabel => by rw [hLabel]⟩
  -- one variable, which is pinned unless it is public
  · dsimp only
    split_ifs with hLeave
    · exact .inr (.inl ⟨rfl, rfl⟩)
    · have hPrivate : table.publicCount ≤ u := by
        simpa [isPublic] using fun hPublic => hLeave (.inl hPublic)
      rcases hShort.pin hPrivate (-constant / cu) with
        ⟨hPin, hPin'⟩ | ⟨next, next', hPin, hPin', hNext⟩
      · rw [hPin, hPin']
        exact .inl ⟨_, _, rfl, rfl, fun _ => rfl⟩
      · rw [hPin, hPin']
        exact .inr (.inr ⟨next, next', rfl, rfl, hNext⟩)
  -- two variables, of which the younger one is linked to the older one
  · dsimp only
    split_ifs with hLeave
    · exact .inr (.inl ⟨rfl, rfl⟩)
    · have hOrder : u < v := (List.pairwise_cons.mp hSorted).1 (cv, v) (by simp)
      have hCoeff : -cu / cv ≠ 0 :=
        div_ne_zero (neg_ne_zero.mpr (hNonzero (cu, u) (by simp))) (hNonzero (cv, v) (by simp))
      have hPrivate : table.publicCount ≤ v := by
        simpa [isPublic] using fun hPublic => hLeave (.inl hPublic)
      rcases hShort.link hOrder hCoeff hPrivate (-constant / cv) with
        ⟨hLink, hLink'⟩ | ⟨next, next', hLink, hLink', hNext⟩
      · rw [hLink, hLink']
        exact .inl ⟨_, _, rfl, rfl, fun _ => rfl⟩
      · rw [hLink, hLink']
        exact .inr (.inr ⟨next, next', rfl, rfl, hNext⟩)
  · exact .inr (.inl ⟨rfl, rfl⟩)

/-- Twin tables refuse, absorb or keep assertions alike that differ only in spelling. -/
theorem absorb (h : Twins size table table') (settings : Settings) {k k' : Assertion p}
    (hk : k.Alike (Expr.Synonyms size) k') :
    (∃ stop stop', table.absorb settings k = .error stop ∧
      table'.absorb settings k' = .error stop') ∨
    (∃ next next', table.absorb settings k = .ok (.absorbed next) ∧
      table'.absorb settings k' = .ok (.absorbed next') ∧ Twins size next next') ∨
    ∃ kept kept', table.absorb settings k = .ok (.kept kept) ∧
      table'.absorb settings k' = .ok (.kept kept') ∧ kept.Alike (Expr.Synonyms size) kept' := by
  have hOffered := h.offered settings hk
  unfold VariableTable.absorb
  dsimp only
  rw [← VariableTable.offered, ← VariableTable.offered]
  generalize table.offered settings k.constraint = c at hOffered ⊢
  generalize table'.offered settings k'.constraint = c' at hOffered ⊢
  cases hOffered with
  | @equal a a' b b' ha hb =>
      have hValue (w : Nat → Residue p) :
          (a.linear - b.linear).value w = (a'.linear - b'.linear).value w := by
        simp only [LinearForm.value_sub, Expr.value_linear, ha.value, hb.value]
      rcases h.unify hValue settings.unification k.label k'.label with
        ⟨stop, stop', hUnify, hUnify', -⟩ | ⟨hUnify, hUnify'⟩ |
        ⟨next, next', hUnify, hUnify', hNext⟩
      · simp only [hUnify, hUnify']
        exact .inl ⟨stop, stop', rfl, rfl⟩
      · simp only [hUnify, hUnify']
        exact .inr (.inr ⟨_, _, rfl, rfl, .equal ha hb⟩)
      · simp only [hUnify, hUnify']
        exact .inr (.inl ⟨next, next', rfl, rfl, hNext⟩)
  | product ha hb ho => exact .inr (.inr ⟨_, _, rfl, rfl, .product ha hb ho⟩)
  | square ha hb => exact .inr (.inr ⟨_, _, rfl, rfl, .square ha hb⟩)
  | boolean ha => exact .inr (.inr ⟨_, _, rfl, rfl, .boolean ha⟩)
  | range ha bits variant => exact .inr (.inr ⟨_, _, rfl, rfl, .range ha bits variant⟩)
  | raw kind hs coeffs => exact .inr (.inr ⟨_, _, rfl, rfl, .raw kind hs coeffs⟩)

/-- The last round of absorption, in lockstep. -/
theorem absorbAll (h : Twins size table table') (settings : Settings)
    {ks ks' : List (Assertion p)}
    (hAlike : List.Forall₂ (Assertion.Alike (Expr.Synonyms size)) ks ks') :
    Twins size (table.absorbAll settings ks).2 (table'.absorbAll settings ks').2 ∧
    ((∃ stop stop', (table.absorbAll settings ks).1 = .error stop ∧
        (table'.absorbAll settings ks').1 = .error stop') ∨
      ∃ waiting waiting' unified, (table.absorbAll settings ks).1 = .ok (waiting, unified) ∧
        (table'.absorbAll settings ks').1 = .ok (waiting', unified) ∧
        List.Forall₂ (Assertion.Alike (Expr.Synonyms size)) waiting waiting') := by
  induction hAlike generalizing table table' with
  | nil => exact ⟨h, .inr ⟨[], [], 0, rfl, rfl, .nil⟩⟩
  | cons hk _ ih =>
      rcases h.absorb settings hk with ⟨stop, stop', hFirst, hFirst'⟩ |
        ⟨next, next', hFirst, hFirst', hNext⟩ | ⟨kept, kept', hFirst, hFirst', hKept⟩
      · simp only [VariableTable.absorbAll, hFirst, hFirst']
        exact ⟨h, .inl ⟨stop, stop', rfl, rfl⟩⟩
      · simp only [VariableTable.absorbAll, hFirst, hFirst']
        obtain ⟨hFinal, ⟨stop, stop', hRest, hRest'⟩ |
          ⟨waiting, waiting', unified, hRest, hRest', hWaiting⟩⟩ := ih hNext
        · rw [hRest, hRest']
          exact ⟨hFinal, .inl ⟨stop, stop', rfl, rfl⟩⟩
        · rw [hRest, hRest']
          exact ⟨hFinal, .inr ⟨waiting, waiting', unified + 1, rfl, rfl, hWaiting⟩⟩
      · simp only [VariableTable.absorbAll, hFirst, hFirst']
        obtain ⟨hFinal, ⟨stop, stop', hRest, hRest'⟩ |
          ⟨waiting, waiting', unified, hRest, hRest', hWaiting⟩⟩ := ih h
        · rw [hRest, hRest']
          exact ⟨hFinal, .inl ⟨stop, stop', rfl, rfl⟩⟩
        · rw [hRest, hRest']
          exact ⟨hFinal, .inr ⟨_, _, unified, rfl, rfl, .cons hKept hWaiting⟩⟩

end Twins

end VariableTable

namespace Recording

/-- Two recordings under the same settings and with the same counts, in which assertions wait that
differ only in spelling. -/
structure Twins {p : Nat} (settings : Settings) (size : Nat) (recording recording' : Recording p) :
    Prop where
  settings_eq : recording.settings = settings
  settings_eq' : recording'.settings = settings
  recorded : recording.recorded = recording'.recorded
  unified : recording.unified = recording'.unified
  waiting : List.Forall₂ (Assertion.Alike (Expr.Synonyms size)) recording.waiting.toList
    recording'.waiting.toList

namespace Twins

variable {p : Nat} [Modulus p] [Fact p.Prime] {settings : Settings} {size : Nat}
  {recording recording' : Recording p} {table table' : VariableTable p}

/-- Recording one more assertion, in lockstep. -/
theorem add (h : Twins settings size recording recording') (hTable : table.Twins size table')
    {k k' : Assertion p} (hk : k.Alike (Expr.Synonyms size) k') :
    (recording.add table k).1.isOk = (recording'.add table' k').1.isOk ∧
      Twins settings size (recording.add table k).2.1 (recording'.add table' k').2.1 ∧
      VariableTable.Twins size (recording.add table k).2.2 (recording'.add table' k').2.2 := by
  obtain ⟨own, waiting, recorded, unified⟩ := recording
  obtain ⟨own', waiting', recorded', unified'⟩ := recording'
  obtain ⟨hSettings, hSettings', hRecorded, hUnified, hWaiting⟩ := h
  dsimp only at hSettings hSettings' hRecorded hUnified hWaiting
  subst hSettings hSettings' hRecorded hUnified
  have hArity := Constraint.Alike.checkArity hk
  simp only [Recording.add, ← hArity]
  cases k.constraint.checkArity with
  | error fault => exact ⟨rfl, ⟨rfl, rfl, rfl, rfl, hWaiting⟩, hTable⟩
  | ok _ =>
      rcases hTable.absorb _ hk with ⟨stop, stop', hAbsorb, hAbsorb'⟩ |
        ⟨next, next', hAbsorb, hAbsorb', hNext⟩ | ⟨kept, kept', hAbsorb, hAbsorb', hKept⟩
      · rw [hAbsorb, hAbsorb']
        exact ⟨rfl, ⟨rfl, rfl, rfl, rfl, hWaiting⟩, hTable⟩
      · rw [hAbsorb, hAbsorb']
        exact ⟨rfl, ⟨rfl, rfl, rfl, rfl, hWaiting⟩, hNext⟩
      · rw [hAbsorb, hAbsorb']
        refine ⟨rfl, ⟨rfl, rfl, rfl, rfl, ?_⟩, hTable⟩
        simp only [Array.toList_push]
        exact List.rel_append hWaiting (.cons hKept .nil)

/-- Whole recordings, in lockstep. -/
theorem addAll (h : Twins settings size recording recording') (hTable : table.Twins size table')
    {ks ks' : List (Assertion p)}
    (hAlike : List.Forall₂ (Assertion.Alike (Expr.Synonyms size)) ks ks') :
    (recording.addAll table ks).1.map (·.2.isOk) =
        (recording'.addAll table' ks').1.map (·.2.isOk) ∧
      Twins settings size (recording.addAll table ks).2.1 (recording'.addAll table' ks').2.1 ∧
      VariableTable.Twins size (recording.addAll table ks).2.2
        (recording'.addAll table' ks').2.2 := by
  induction hAlike generalizing recording recording' table table' with
  | nil => exact ⟨rfl, h, hTable⟩
  | cons hk _ ih =>
      obtain ⟨hOk, hNext, hNextTable⟩ := h.add hTable hk
      obtain ⟨hLog, hFinal⟩ := ih hNext hNextTable
      simp only [Recording.addAll, List.map_cons]
      exact ⟨congr (congrArg List.cons hOk) hLog, hFinal⟩

/-- Twin recordings are finished to the same circuit, or both refused. -/
theorem finalize (h : Twins settings size recording recording') (hTable : table.Twins size table')
    (hNormalize : settings.normalizeOperands = true) :
    (recording.finalize table).1.toOption = (recording'.finalize table').1.toOption ∧
      VariableTable.Twins size (recording.finalize table).2 (recording'.finalize table').2 := by
  obtain ⟨hFinal, hResult⟩ := hTable.absorbAll settings h.waiting
  simp only [Recording.finalize, h.settings_eq, h.settings_eq', ← h.unified]
  generalize table.absorbAll settings recording.waiting.toList = last at hFinal hResult ⊢
  generalize table'.absorbAll settings recording'.waiting.toList = last' at hFinal hResult ⊢
  obtain ⟨result, final⟩ := last
  obtain ⟨result', final'⟩ := last'
  dsimp only at hFinal hResult ⊢
  rcases hResult with ⟨stop, stop', rfl, rfl⟩ | ⟨waiting, waiting', unified, rfl, rfl, hWaiting⟩
  · exact ⟨rfl, hFinal⟩
  · have hAlike : final.ResolvesAlike recording.settings.normalizeOperands final'
        (Expr.Synonyms size) := by
      rw [h.settings_eq, hNormalize]
      exact hFinal.resolvesAlike
    have hSame := assemble_eq_ok_congr (h.settings_eq.trans h.settings_eq'.symm) h.recorded hAlike
      (hFinal.size_eq.trans hFinal.size_eq'.symm) hFinal.publicCount hWaiting
      (recording.unified + unified)
    dsimp only
    cases hAssemble : recording.assemble final waiting (recording.unified + unified) with
    | ok circuit =>
        rw [(hSame circuit).mp hAssemble]
        exact ⟨rfl, hFinal⟩
    | error fault =>
        cases hAssemble' : recording'.assemble final' waiting' (recording.unified + unified) with
        | ok circuit =>
            rw [(hSame circuit).mpr hAssemble'] at hAssemble
            cases hAssemble
        | error fault' => exact ⟨rfl, hFinal⟩

end Twins

/-- The spelling of operands does not matter. When operands are brought to normal shape, two
recordings over the same table, of assertions that differ only in how their operands are written,
are refused at the same places, give every variable the same representative, and are finished to
the same circuit or not at all. -/
theorem finalize_spelling {p : Nat} [Modulus p] [Fact p.Prime] {settings : Settings}
    (hNormalize : settings.normalizeOperands = true) {table : VariableTable p}
    (hTable : table.WellFormed) {assertions assertions' : List (Assertion p)}
    (hAlike : List.Forall₂ (Assertion.Alike (Expr.Synonyms table.size)) assertions assertions')
    {log log' : List (Outcome p)} {recording recording' : Recording p}
    {next next' : VariableTable p}
    (hAdd : (start settings).addAll table assertions = (log, recording, next))
    (hAdd' : (start settings).addAll table assertions' = (log', recording', next')) :
    log.map (·.2.isOk) = log'.map (·.2.isOk) ∧
      (recording.finalize next).1.toOption = (recording'.finalize next').1.toOption ∧
      ∀ x, next.rep x = next'.rep x ∧
        (recording.finalize next).2.rep x = (recording'.finalize next').2.rep x := by
  have hStart : Twins settings table.size (start settings : Recording p) (start settings) :=
    ⟨rfl, rfl, rfl, rfl, .nil⟩
  have hRun := hStart.addAll (.refl hTable) hAlike
  rw [hAdd, hAdd'] at hRun
  obtain ⟨hLog, hRecording, hNext⟩ := hRun
  obtain ⟨hCircuit, hFinal⟩ := hRecording.finalize hNext hNormalize
  exact ⟨hLog, hCircuit, fun x => ⟨hNext.rep x, hFinal.rep x⟩⟩

/-- Terms that are reordered, repeated, scaled by zero or cancelled: the same contradiction is
refused, and the circuit is the same. -/
theorem finalize_spelling_reordered :
    let assertions : List (Assertion 7) :=
      [⟨none, .equal (.var 1) (.add (.scale (1 + 1) (.var 0)) 1)⟩,
        ⟨none, .equal (.var 0) (.add (.var 0) 1)⟩,
        ⟨none, .product (.add (.var 1) (.var 2)) (.var 3) (.var 0)⟩]
    let assertions' : List (Assertion 7) :=
      [⟨none, .equal (.add (.var 1) (.scale 0 (.var 3))) (.add (.add 1 (.var 0)) (.var 0))⟩,
        ⟨none, .equal (.scale 1 (.var 0)) (.add 1 (.var 0))⟩,
        ⟨none, .product (.add (.var 2) (.var 1)) (.var 3)
          (.add (.var 3) (.add (.var 0) (.scale (-1) (.var 3))))⟩]
    let table : VariableTable 7 := .allocated [none] [none, none, none]
    let recorded := (start Settings.standard).addAll table assertions
    let recorded' := (start Settings.standard).addAll table assertions'
    recorded'.1.map (·.2.isOk) = [true, false, true] ∧
      (∃ circuit, (recorded.2.1.finalize recorded.2.2).1 = .ok circuit ∧
        (recorded'.2.1.finalize recorded'.2.2).1 = .ok circuit) ∧
      (recorded'.2.1.finalize recorded'.2.2).2.rep 1 = .var 0 (1 + 1) 1 := by
  intro assertions assertions' table recorded recorded'
  have : Fact (Nat.Prime 7) := ⟨by decide⟩
  have hTable : table.WellFormed :=
    (VariableTable.allocated_unrelated [none] [none, none, none]).1.wellFormed
  have hAlike :
      List.Forall₂ (Assertion.Alike (Expr.Synonyms table.size)) assertions assertions' := by
    refine .cons (.equal ?_ ?_) (.cons (.equal ?_ ?_) (.cons (.product ?_ ?_ ?_) .nil))
    all_goals
      refine ⟨by decide, by decide, fun w => ?_⟩
      simp only [Expr.value] <;> ring
  have hNormalize : Settings.standard.normalizeOperands = true := rfl
  obtain ⟨hLog, hCircuit, hRep⟩ := finalize_spelling hNormalize hTable hAlike rfl rfl
  have hOk : (recorded.2.1.finalize recorded.2.2).1.isOk := by decide +kernel
  refine ⟨hLog.symm.trans (by decide +kernel), ?_, (hRep 1).2.symm.trans (by decide +kernel)⟩
  change (recorded.2.1.finalize recorded.2.2).1.toOption =
    (recorded'.2.1.finalize recorded'.2.2).1.toOption at hCircuit
  rcases hFirst : (recorded.2.1.finalize recorded.2.2).1 with _ | circuit
  · rw [hFirst] at hOk
    cases hOk
  · rcases hSecond : (recorded'.2.1.finalize recorded'.2.2).1 with _ | circuit'
    · rw [hFirst, hSecond] at hCircuit
      cases hCircuit
    · rw [hFirst, hSecond] at hCircuit
      obtain rfl := Option.some.inj hCircuit
      exact ⟨circuit, rfl, rfl⟩

end Recording

end ArithCircuit
