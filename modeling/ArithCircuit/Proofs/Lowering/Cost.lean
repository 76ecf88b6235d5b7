import ArithCircuit.Proofs.Lowering.Emit
import ArithCircuit.Proofs.Lowering.Rows

/-! What lowering costs. A draft grows by halves that define auxiliary variables and by the halves
and rows that state the constraints themselves. The demand of a constraint is the number of
auxiliary variables it takes without optimization, if none is shared. -/
namespace ArithCircuit

namespace Expr

variable {p : Nat}

/-- The auxiliary variables that merge all terms into one. -/
def merges (e : Expr p) : Nat := e.vars.length - 1

variable [Modulus p]

/-- The expression is a single variable, as it stands. -/
def IsBare (e : Expr p) : Prop := ∃ x, e.linear = ⟨[(1, x)], 0⟩

/-- Whether the signal left by merging all terms holds the expression. -/
def isHeld (e : Expr p) : Bool :=
  match e.linear.terms with
  | [] => false
  | [(coeff, _)] => coeff = 1 ∧ e.linear.constant = 0
  | _ => e.linear.constant = 0

/-- The auxiliary variables that put the expression into a cell. -/
def cellDemand (e : Expr p) : Nat := e.merges + if e.isHeld then 0 else 1

theorem linear_length (e : Expr p) : e.linear.terms.length = e.vars.length := by
  rw [← linear_vars, List.length_map]

/-- Only a single variable takes no auxiliary one. -/
theorem isBare_of_cellDemand {e : Expr p} (h : e.cellDemand = 0) : e.IsBare := by
  have hLength := e.linear_length
  rw [cellDemand, merges, ← hLength] at h
  rw [IsBare]
  generalize hForm : e.linear = form at h
  obtain ⟨terms, constant⟩ := form
  rw [isHeld, hForm] at h
  match terms, h with
  | [], h => simp at h
  | [(coeff, x)], h =>
      obtain ⟨rfl, rfl⟩ : coeff = 1 ∧ constant = 0 := by simpa using h
      exact ⟨x, rfl⟩
  | _ :: _ :: rest, h => simp at h

/-- Twice the demand covers a definition of its own besides the merging. -/
theorem vars_le_two_mul_cellDemand {e : Expr p} (h : e.cellDemand ≠ 0) :
    e.merges + 1 ≤ 2 * e.cellDemand := by
  rw [cellDemand] at h ⊢
  split_ifs at h ⊢ with hHeld
  · omega
  · omega

end Expr

namespace Constraint

variable {p : Nat} [Modulus p]

/-- The auxiliary variables for the operands of one half of a row that is given directly. -/
def rawHalfDemand (operands : List (Expr p)) (k : HalfCoeffs p) (start : Nat) : Nat :=
  if k = .zero then 0
  else (operands[start]?.map Expr.merges).getD 0 + (operands[start + 1]?.map Expr.merges).getD 0 +
    (operands[start + 2]?.map Expr.merges).getD 0

/-- The auxiliary variables that the constraint takes without optimization, if none is shared. -/
def auxDemand : Constraint p → Nat
  | .equal a b => a.vars.length + b.vars.length - 3
  | .product a b c => a.merges + b.merges + c.merges
  | .square a b => a.merges + b.merges
  | .boolean a => a.merges
  | .range a 0 _ => a.vars.length - 3
  | .range a _ _ => a.cellDemand
  | .raw .generic operands coeffs =>
    rawHalfDemand operands (.ofListAt coeffs 0) 0 + rawHalfDemand operands (.ofListAt coeffs 5) 3
  | .raw _ operands _ => (operands.map Expr.cellDemand).sum

/-- The halves and rows that state the constraint itself. -/
def statements : Constraint p → Nat
  | .raw .generic _ coeffs =>
    (if HalfCoeffs.ofListAt coeffs 0 = .zero then 0 else 1) +
      if HalfCoeffs.ofListAt coeffs 5 = .zero then 0 else 1
  | _ => 1

theorem auxDemand_other {kind : GateKind} (hKind : kind ≠ .generic) (operands : List (Expr p))
    (coeffs : List (Residue p)) :
    (raw kind operands coeffs).auxDemand = (operands.map Expr.cellDemand).sum := by
  cases kind with
  | generic => exact absurd rfl hKind
  | _ => rfl

theorem statements_other {kind : GateKind} (hKind : kind ≠ .generic) (operands : List (Expr p))
    (coeffs : List (Residue p)) : (raw kind operands coeffs).statements = 1 := by
  cases kind with
  | generic => exact absurd rfl hKind
  | _ => rfl

/-- The rows that the constraint takes without optimization, if nothing is shared. -/
def plainRows (c : Constraint p) : Nat := c.auxDemand + c.statements

end Constraint

/-- What a variable is worth, as a definition. -/
def Rep.definition {p : Nat} : Rep p → AuxDef p
  | .var r c o => ⟨[(c, .var r)], o⟩
  | .const k => ⟨[], k⟩

namespace VariableTable

variable {p : Nat} [Modulus p]

theorem resolveAs_length_le (table : VariableTable p) (form : LinearForm p) (normalize : Bool) :
    (table.resolveAs form normalize).terms.length ≤ form.terms.length := by
  have hBefore (terms : List (Residue p × Nat)) (rest : LinearForm p) :
      (table.resolveBefore terms rest).terms.length ≤ terms.length + rest.terms.length := by
    induction terms with
    | nil => simp [resolveBefore]
    | cons term terms ih =>
        rw [resolveBefore, List.foldr_cons, ← resolveBefore]
        cases table.rep term.2 with
        | var r c o =>
            simp only [List.length_cons]
            omega
        | const k =>
            simp only [List.length_cons]
            omega
  have hResolve : (table.resolve form).terms.length ≤ form.terms.length :=
    hBefore form.terms (.ofConstant form.constant)
  rw [resolveAs]
  split_ifs
  · exact (LinearForm.normalize_length_le _).trans hResolve
  · exact hResolve

/-- The variables that are not free any longer. -/
def related (table : VariableTable p) : List Nat :=
  (List.range table.size).filter fun x => !table.classes.isRoot x

omit [Modulus p] in
theorem mem_related {table : VariableTable p} {x : Nat} :
    x ∈ table.related ↔ x < table.size ∧ ¬ table.Free x := by
  simp [related, Free, ← Forest.isRoot_iff]

/-- The definitions that hold a single variable, for all variables that are not free. -/
def relatedDefs (table : VariableTable p) : List (AuxDef p) :=
  table.related.map fun x => (table.rep x).definition

/-- Over variables that are not related, resolving changes nothing. -/
theorem Unrelated.resolve_eq {table : VariableTable p} (h : table.Unrelated)
    (form : LinearForm p) : table.resolve form = form := by
  obtain ⟨terms, constant⟩ := form
  rw [resolve, resolveBefore]
  induction terms with
  | nil => rfl
  | cons term terms ih =>
      rw [List.foldr_cons, ih, h.rep_eq]
      simp [Rep.ofVar]

end VariableTable

namespace Draft

variable {p : Nat} [Modulus p] {a b c draft : Draft p} {table : VariableTable p}

/-- One draft continues another by halves alone: one for each new auxiliary variable, and `extra`
others. -/
structure AddsHalves (extra : Nat) (before after : Draft p) : Prop where
  aux : before.aux.toList <+: after.aux.toList
  emitted : ∃ halves : List (Half p),
    after.emitted.toList = before.emitted.toList ++ halves.map .half ∧
      halves.length + before.aux.size = after.aux.size + extra

omit [Modulus p] in
theorem AddsHalves.refl (draft : Draft p) : AddsHalves 0 draft draft :=
  ⟨List.prefix_refl _, [], by simp, by simp⟩

omit [Modulus p] in
theorem AddsHalves.trans {m n : Nat} (hab : AddsHalves m a b) (hbc : AddsHalves n b c) :
    AddsHalves (m + n) a c := by
  obtain ⟨first, hFirst, hFirstCount⟩ := hab.emitted
  obtain ⟨second, hSecond, hSecondCount⟩ := hbc.emitted
  refine ⟨hab.aux.trans hbc.aux, first ++ second, ?_, ?_⟩
  · rw [hSecond, hFirst, List.map_append, List.append_assoc]
  · rw [List.length_append]
    omega

omit [Modulus p] in
theorem AddsHalves.emit_half (h : AddsHalves 0 a b) (half : Half p) :
    AddsHalves 1 a (b.emit (.half half)) := by
  have hLast : AddsHalves 1 b (b.emit (.half half)) :=
    ⟨List.prefix_refl _, [half], by simp [emit], by simp [emit, Nat.add_comm]⟩
  simpa using h.trans hLast

/-- A definition adds itself, unless it is known. -/
theorem define_adds (draft : Draft p) (d : AuxDef p) :
    AddsHalves 0 draft (draft.define d).2 ∧
      ((draft.define d).2.aux = draft.aux ∨ (draft.define d).2.aux = draft.aux.push d) := by
  cases hKnown : draft.known[d.code]? with
  | some k =>
      rw [define, hKnown]
      exact ⟨.refl draft, .inl rfl⟩
  | none =>
      rw [define, hKnown]
      refine ⟨⟨?_, [.defining d (.aux draft.aux.size)], ?_, ?_⟩, .inr rfl⟩
      · simp [emit, extend]
      · simp [emit, extend]
      · simp [emit, extend, Nat.add_comm]

theorem define_size_le (draft : Draft p) (d : AuxDef p) :
    (draft.define d).2.aux.size ≤ draft.aux.size + 1 := by
  rcases (define_adds draft d).2 with hSame | hPush
  · rw [hSame]
    exact Nat.le_succ _
  · rw [hPush, Array.size_push]

theorem reduceFrom_adds (keep : Nat) (draft : Draft p) (head : Residue p × Signal)
    (rest : List (Residue p × Signal)) :
    AddsHalves 0 draft (draft.reduceFrom keep head rest).2 ∧
      (draft.reduceFrom keep head rest).2.aux.size ≤ draft.aux.size + (rest.length + 1 - keep) := by
  induction rest generalizing draft head with
  | nil => exact ⟨.refl draft, Nat.le_add_right _ _⟩
  | cons following rest ih =>
      rw [reduceFrom]
      split_ifs with hMerge
      · obtain ⟨hRest, hSize⟩ := ih (draft.define ⟨[head, following], 0⟩).2
          (1, (draft.define ⟨[head, following], 0⟩).1)
        have hDefine := define_adds draft ⟨[head, following], 0⟩
        have hOne := define_size_le draft ⟨[head, following], 0⟩
        refine ⟨hDefine.1.trans hRest, hSize.trans ?_⟩
        rw [List.length_cons]
        omega
      · exact ⟨.refl draft, Nat.le_add_right _ _⟩

theorem reduce_adds (keep : Nat) (draft : Draft p)
    (terms : List (Residue p × Signal)) :
    AddsHalves 0 draft (draft.reduce keep terms).2 ∧
      (draft.reduce keep terms).2.aux.size ≤ draft.aux.size + (terms.length - keep) := by
  cases terms with
  | nil => exact ⟨.refl draft, Nat.le_add_right _ _⟩
  | cons head rest => exact reduceFrom_adds keep draft head rest

/-- Merging two terms or more leaves one signal with coefficient one. -/
theorem reduceFrom_one (draft : Draft p) (head following : Residue p × Signal)
    (rest : List (Residue p × Signal)) :
    ∃ signal, (draft.reduceFrom 1 head (following :: rest)).1 = [(1, signal)] := by
  induction rest generalizing draft head following with
  | nil => exact ⟨_, by rw [reduceFrom, if_pos (by simp)]; rfl⟩
  | cons later rest ih =>
      rw [reduceFrom, if_pos (by simp)]
      exact ih _ _ later

theorem operand_adds (draft : Draft p) (settings : Settings) (table : VariableTable p)
    (e : Expr p) :
    AddsHalves 0 draft (draft.operand settings table e).2 ∧
      (draft.operand settings table e).2.aux.size ≤ draft.aux.size + e.merges := by
  obtain ⟨hAdds, hSize⟩ := reduce_adds 1 draft
    (signalTerms (table.resolveAs e.linear settings.normalizeOperands))
  have hLength := table.resolveAs_length_le e.linear settings.normalizeOperands
  rw [e.linear_length] at hLength
  have hDraft : (draft.operand settings table e).2 =
      (draft.reduce 1 (signalTerms (table.resolveAs e.linear settings.normalizeOperands))).2 := by
    rw [operand]
    split <;> rename_i hReduce <;> rw [hReduce]
  rw [hDraft]
  refine ⟨hAdds, hSize.trans ?_⟩
  rw [signalTerms, List.length_map, Expr.merges]
  omega

/-- Put an expression into a cell. -/
def cell (draft : Draft p) (settings : Settings) (table : VariableTable p) (e : Expr p) :
    Signal × Draft p :=
  (draft.operand settings table e).2.materialize (draft.operand settings table e).1

theorem materialize_adds (draft : Draft p) (x : Operand p) :
    AddsHalves 0 draft (draft.materialize x).2 ∧
      (draft.materialize x).2.aux.size ≤ draft.aux.size + 1 := by
  rw [materialize]
  split
  · exact ⟨(define_adds _ _).1, define_size_le _ _⟩
  · split_ifs
    · exact ⟨.refl draft, Nat.le_succ _⟩
    · exact ⟨(define_adds _ _).1, define_size_le _ _⟩

theorem cell_adds (draft : Draft p) (settings : Settings) (table : VariableTable p) (e : Expr p) :
    AddsHalves 0 draft (draft.cell settings table e).2 ∧
      (draft.cell settings table e).2.aux.size ≤ draft.aux.size + e.merges + 1 := by
  obtain ⟨hOperand, hSize⟩ := operand_adds draft settings table e
  obtain ⟨hHeld, hOne⟩ := materialize_adds (draft.operand settings table e).2
    (draft.operand settings table e).1
  exact ⟨hOperand.trans hHeld, hOne.trans (Nat.succ_le_succ hSize)⟩

/-- Where the expression is held, the operand is the signal that holds it. -/
theorem operand_of_isHeld (draft : Draft p) {settings : Settings}
    (hSettings : settings.normalizeOperands = false) (hTable : table.Unrelated) {e : Expr p}
    (hHeld : e.isHeld = true) :
    ∃ signal, (draft.operand settings table e).1 = ⟨1, some signal, 0⟩ := by
  have hForm : table.resolveAs e.linear settings.normalizeOperands = e.linear := by
    rw [hSettings, VariableTable.resolveAs, if_neg (by simp), hTable.resolve_eq]
  rw [operand, hForm]
  rw [Expr.isHeld] at hHeld
  generalize e.linear = form at hHeld
  rcases form with ⟨_ | ⟨first, _ | ⟨second, rest⟩⟩, constant⟩
  · cases hHeld
  · obtain ⟨coeff, x⟩ := first
    obtain ⟨rfl, rfl⟩ : coeff = 1 ∧ constant = 0 := by simpa using hHeld
    exact ⟨.var x, rfl⟩
  · obtain rfl : constant = 0 := by simpa using hHeld
    obtain ⟨signal, hSignal⟩ := reduceFrom_one draft (first.1, .var first.2)
      (second.1, .var second.2) (signalTerms ⟨rest, 0⟩)
    have hReduce : (draft.reduce 1 (signalTerms ⟨first :: second :: rest, 0⟩)).1 =
      [(1, signal)] := hSignal
    rcases hAll : draft.reduce 1 (signalTerms ⟨first :: second :: rest, 0⟩) with ⟨terms, next⟩
    rw [hAll] at hReduce
    obtain rfl : terms = [(1, signal)] := hReduce
    exact ⟨signal, rfl⟩

/-- Without optimization a cell takes its demand at most. -/
theorem cell_size_le_of_unrelated (draft : Draft p) {settings : Settings}
    (hSettings : settings.normalizeOperands = false) (hTable : table.Unrelated) (e : Expr p) :
    (draft.cell settings table e).2.aux.size ≤ draft.aux.size + e.cellDemand := by
  obtain ⟨-, hSize⟩ := operand_adds draft settings table e
  obtain ⟨-, hOne⟩ := materialize_adds (draft.operand settings table e).2
    (draft.operand settings table e).1
  rw [Expr.cellDemand]
  split_ifs with hHeld
  · obtain ⟨signal, hPlain⟩ := operand_of_isHeld draft hSettings hTable hHeld
    rw [cell, hPlain, materialize]
    simpa using hSize
  · exact hOne.trans (Nat.succ_le_succ hSize)

/-- How many auxiliary variables hold a single variable that is not free. -/
def relatedCount (table : VariableTable p) (draft : Draft p) : Nat :=
  draft.aux.toList.countP fun d => d ∈ table.relatedDefs

theorem relatedCount_emit (table : VariableTable p) (draft : Draft p) (emission : Emission p) :
    (draft.emit emission).relatedCount table = draft.relatedCount table := rfl

theorem AddsHalves.relatedCount_le {m : Nat} (h : AddsHalves m a b) (table : VariableTable p) :
    a.relatedCount table ≤ b.relatedCount table := by
  obtain ⟨rest, hRest⟩ := h.aux
  rw [relatedCount, relatedCount, ← hRest, List.countP_append]
  exact Nat.le_add_right _ _

/-- The operand of a single variable whose class is pinned. -/
theorem operand_of_pinned (draft : Draft p) (settings : Settings) {x : Nat} {k : Residue p}
    (hRep : table.rep x = .const k) {e : Expr p} (he : e.linear = ⟨[(1, x)], 0⟩) :
    draft.operand settings table e = (⟨0, none, k⟩, draft) := by
  have hForm : table.resolveAs e.linear settings.normalizeOperands = ⟨[], k⟩ := by
    rw [he, VariableTable.resolveAs]
    simp [VariableTable.resolve, VariableTable.resolveBefore, hRep, LinearForm.ofConstant,
      LinearForm.normalize]
  rw [operand, hForm]
  rfl

/-- The operand of a single variable whose class is represented by a variable. -/
theorem operand_of_represented (draft : Draft p) (settings : Settings) {x r : Nat}
    {c o : Residue p} (hRep : table.rep x = .var r c o) (hNonzero : c ≠ 0) {e : Expr p}
    (he : e.linear = ⟨[(1, x)], 0⟩) :
    draft.operand settings table e = (⟨c, some (.var r), o⟩, draft) := by
  have hForm : table.resolveAs e.linear settings.normalizeOperands = ⟨[(c, r)], o⟩ := by
    rw [he, VariableTable.resolveAs]
    simp [VariableTable.resolve, VariableTable.resolveBefore, hRep, LinearForm.ofConstant,
      LinearForm.normalize, LinearForm.insertTerm, hNonzero]
  rw [operand, hForm]
  rfl

/-- A single variable is put into a cell without an auxiliary variable, unless it is not free and
needs the one that holds it. -/
theorem cell_of_bare [Fact p.Prime] (draft : Draft p) (settings : Settings)
    (hTable : table.WellFormed) {x : Nat} (hx : x < table.size) {e : Expr p}
    (he : e.linear = ⟨[(1, x)], 0⟩) :
    (draft.cell settings table e).2.aux = draft.aux ∨
      ∃ d ∈ table.relatedDefs, (draft.cell settings table e).2.aux = draft.aux.push d := by
  have hDefine (hFree : ¬ table.Free x) :
      (draft.define (table.rep x).definition).2.aux = draft.aux ∨
        ∃ d ∈ table.relatedDefs,
          (draft.define (table.rep x).definition).2.aux = draft.aux.push d := by
    have hMem : (table.rep x).definition ∈ table.relatedDefs :=
      List.mem_map_of_mem (VariableTable.mem_related.mpr ⟨hx, hFree⟩)
    exact (define_adds draft _).2.imp_right fun hPush => ⟨_, hMem, hPush⟩
  cases hRep : table.rep x with
  | const k =>
      have hCell : draft.cell settings table e = draft.define (table.rep x).definition := by
        rw [cell, operand_of_pinned draft settings hRep he, hRep]
        rfl
      rw [hCell]
      refine hDefine fun hFree => ?_
      rw [VariableTable.rep_of_free hFree] at hRep
      cases hRep
  | var r c o =>
      have hNonzero := (VariableTable.rep_var hTable hx hRep).2
      have hCell : draft.cell settings table e =
          if c = 1 ∧ o = 0 then (.var r, draft) else draft.define (table.rep x).definition := by
        rw [cell, operand_of_represented draft settings hRep hNonzero he, hRep]
        rfl
      rw [hCell]
      split_ifs with hPlain
      · exact .inl rfl
      · refine hDefine fun hFree => hPlain ?_
        rw [VariableTable.rep_of_free hFree] at hRep
        obtain ⟨-, rfl, rfl⟩ := Rep.var.inj hRep
        exact ⟨rfl, rfl⟩

/-- A cell takes at most twice its demand, besides the auxiliary variables that hold a variable
which is not free. -/
theorem cell_cost [Fact p.Prime] (draft : Draft p) (settings : Settings)
    (hTable : table.WellFormed) {e : Expr p} (hVars : ∀ x ∈ e.vars, x < table.size) :
    (draft.cell settings table e).2.aux.size + draft.relatedCount table ≤
      draft.aux.size + 2 * e.cellDemand + (draft.cell settings table e).2.relatedCount table := by
  obtain ⟨hAdds, hSize⟩ := cell_adds draft settings table e
  by_cases hDemand : e.cellDemand = 0
  · obtain ⟨x, he⟩ := Expr.isBare_of_cellDemand hDemand
    have hx : x < table.size := hVars x (by rw [← Expr.linear_vars, he]; simp)
    rcases cell_of_bare draft settings hTable hx he with hSame | ⟨d, hMem, hPush⟩
    · rw [relatedCount, relatedCount, hSame]
      omega
    · have hOne : [d].countP (fun d => d ∈ table.relatedDefs) = 1 := by simp [hMem]
      rw [relatedCount, relatedCount, hPush, Array.size_push, Array.toList_push,
        List.countP_append, hOne]
      omega
  · have hTwice := Expr.vars_le_two_mul_cellDemand hDemand
    have hCount := hAdds.relatedCount_le table
    omega

theorem materializeAll_cons (settings : Settings) (table : VariableTable p) (draft : Draft p)
    (e : Expr p) (rest : List (Expr p)) :
    (materializeAll settings table draft (e :: rest)).2 =
      (materializeAll settings table (draft.cell settings table e).2 rest).2 := rfl

theorem materializeAll_adds (draft : Draft p) (settings : Settings) (table : VariableTable p)
    (operands : List (Expr p)) :
    AddsHalves 0 draft (materializeAll settings table draft operands).2 := by
  induction operands generalizing draft with
  | nil => exact .refl draft
  | cons e rest ih =>
      rw [materializeAll_cons]
      exact (cell_adds draft settings table e).1.trans (ih _)

theorem materializeAll_size_le_of_unrelated (draft : Draft p) {settings : Settings}
    (hSettings : settings.normalizeOperands = false) (hTable : table.Unrelated)
    (operands : List (Expr p)) :
    (materializeAll settings table draft operands).2.aux.size ≤
      draft.aux.size + (operands.map Expr.cellDemand).sum := by
  induction operands generalizing draft with
  | nil => exact Nat.le_refl _
  | cons e rest ih =>
      have hFirst := cell_size_le_of_unrelated draft hSettings hTable e
      have hRest := ih (draft.cell settings table e).2
      rw [materializeAll_cons, List.map_cons, List.sum_cons]
      omega

theorem materializeAll_cost [Fact p.Prime] (draft : Draft p) (settings : Settings)
    (hTable : table.WellFormed) {operands : List (Expr p)}
    (hVars : ∀ x ∈ operands.flatMap Expr.vars, x < table.size) :
    (materializeAll settings table draft operands).2.aux.size + draft.relatedCount table ≤
      draft.aux.size + 2 * (operands.map Expr.cellDemand).sum +
        (materializeAll settings table draft operands).2.relatedCount table := by
  induction operands generalizing draft with
  | nil => exact Nat.le_refl _
  | cons e rest ih =>
      rw [List.flatMap_cons, List.forall_mem_append] at hVars
      have hFirst := cell_cost draft settings hTable hVars.1
      have hRest := ih (draft.cell settings table e).2 hVars.2
      rw [materializeAll_cons, List.map_cons, List.sum_cons]
      omega

end Draft

end ArithCircuit
