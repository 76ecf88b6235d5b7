import ArithCircuit.Proofs.Lowering.Cost

/-! Rows of a lowered constraint. It is lowered to halves alone, or to the definitions of the cells
of a row of another kind and that row. Without optimization it takes exactly the rows that state it
and one for each auxiliary variable that is new. With shared rows it takes at most its plain rows,
besides those for auxiliary variables that hold a variable which is not free. -/
namespace ArithCircuit

/-- A row of another kind than generic, by the operands of its cells. -/
structure RowRequest (p : Nat) where
  kind : GateKind
  operands : List (Expr p)
  coeffs : List (Residue p)
deriving DecidableEq

/-- The row of another kind than generic that a constraint asks for. With constant folding a range
check asks for none if its operand resolves to a constant in range. -/
def VariableTable.rowFor {p : Nat} [Modulus p] (table : VariableTable p) (settings : Settings) :
    Constraint p → Option (RowRequest p)
  | .range a (bits + 1) variant =>
    if settings.foldConstants ∧
        (table.resolveAs a.linear settings.normalizeOperands).constant?.any (·.fitsIn (bits + 1))
      then none
    else some ⟨variant.kind, [a], [.ofNat p (bits + 1)]⟩
  | .raw kind operands coeffs => if kind = .generic then none else some ⟨kind, operands, coeffs⟩
  | _ => none

/-- The row of something emitted that shares it with nothing else. -/
def Emission.ownRow {p : Nat} : Emission p → Row p
  | .half equation => .single equation
  | .row kind cells coeffs => .other kind cells coeffs

namespace Layout

variable {p : Nat}

/-- The places for halves that are taken, two to a row; only the last row may be half empty. -/
def places (layout : Layout p) : Nat := 2 * layout.rows.size + layout.pending.toList.length

theorem allRows_length (layout : Layout p) :
    layout.allRows.length = layout.rows.size + layout.pending.toList.length := by
  simp [allRows]

theorem place_half_places (layout : Layout p) (half : Half p) :
    (layout.place true (.half half)).places = layout.places + 1 := by
  obtain ⟨rows, pending⟩ := layout
  cases pending with
  | none => rfl
  | some first => simp [place, places, Nat.mul_add]

/-- Two halves take one row. -/
theorem allRows_length_place_halves (layout : Layout p) (halves : List (Half p)) :
    ((halves.map Emission.half).foldl (place true) layout).allRows.length ≤
      layout.allRows.length + (halves.length + 1) / 2 := by
  have hPlaces (layout : Layout p) :
      ((halves.map Emission.half).foldl (place true) layout).places =
        layout.places + halves.length := by
    induction halves generalizing layout with
    | nil => rfl
    | cons half rest ih =>
        rw [List.map_cons, List.foldl_cons, ih, place_half_places, List.length_cons]
        omega
  have hPending (layout : Layout p) : layout.pending.toList.length ≤ 1 := by
    cases layout.pending <;> simp
  have hAll := hPlaces layout
  have hBefore := hPending layout
  have hAfter := hPending ((halves.map Emission.half).foldl (place true) layout)
  rw [places, places] at hAll
  rw [allRows_length, allRows_length]
  omega

/-- A row of another kind closes the row of a half that waits, and takes one more. -/
theorem allRows_length_place_row (layout : Layout p) (kind : GateKind) (cells : List Signal)
    (coeffs : List (Residue p)) :
    (layout.place true (.row kind cells coeffs)).allRows.length = layout.allRows.length + 1 := by
  obtain ⟨rows, pending⟩ := layout
  cases pending <;> simp [place, flush, allRows]

/-- Without sharing everything takes a row of its own. -/
theorem allRows_of_unshared (emitted : List (Emission p)) :
    (ofEmissions false emitted).allRows = emitted.map Emission.ownRow := by
  have hFold (layout : Layout p) (hNone : layout.pending = none) :
      (emitted.foldl (place false) layout).allRows =
        layout.allRows ++ emitted.map Emission.ownRow := by
    induction emitted generalizing layout with
    | nil => simp
    | cons emission rest ih =>
        have hNext : (layout.place false emission).pending = none ∧
            (layout.place false emission).allRows = layout.allRows ++ [emission.ownRow] := by
          cases emission <;> simp [place, flush, allRows, hNone, Emission.ownRow]
        rw [List.foldl_cons, ih _ hNext.1, hNext.2, List.map_cons, List.append_assoc,
          List.singleton_append]
  exact hFold empty rfl

theorem allRows_length_of_unshared (emitted : List (Emission p)) :
    (ofEmissions false emitted).allRows.length = emitted.length := by
  rw [allRows_of_unshared, List.length_map]

end Layout

namespace Draft

variable {p : Nat} [Modulus p] {a b c draft next : Draft p} {table : VariableTable p}
  {settings : Settings} {assertion : Assertion p}

/-- The rows of a draft when halves share rows. -/
def rowCount (draft : Draft p) : Nat :=
  (Layout.ofEmissions true draft.emitted.toList).allRows.length

omit [Modulus p] in
theorem AddsHalves.rowCount_le {m : Nat} (h : AddsHalves m a b) :
    b.rowCount ≤ a.rowCount + (b.aux.size + m - a.aux.size + 1) / 2 := by
  obtain ⟨halves, hEmitted, hCount⟩ := h.emitted
  have hRows := Layout.allRows_length_place_halves (Layout.ofEmissions true a.emitted.toList) halves
  have hLength : halves.length = b.aux.size + m - a.aux.size := by omega
  rw [rowCount, hEmitted, Layout.ofEmissions, List.foldl_append, ← hLength]
  exact hRows

omit [Modulus p] in
theorem rowCount_emit_row (draft : Draft p) (kind : GateKind) (cells : List Signal)
    (coeffs : List (Residue p)) :
    (draft.emit (.row kind cells coeffs)).rowCount = draft.rowCount + 1 := by
  have hEmitted : (draft.emit (.row kind cells coeffs)).emitted.toList =
      draft.emitted.toList ++ [.row kind cells coeffs] := by simp [emit]
  rw [rowCount, hEmitted, Layout.ofEmissions, List.foldl_append]
  exact Layout.allRows_length_place_row _ kind cells coeffs

/-- One draft continues another by halves alone: at most `statements` of them state something, and
exactly as many unless constants are folded, and at most `demand` define auxiliary variables. -/
def States (settings : Settings) (statements demand : Nat) (before after : Draft p) : Prop :=
  ∃ extra ≤ statements, AddsHalves extra before after ∧
    (settings.foldConstants = false → extra = statements) ∧
    after.aux.size ≤ before.aux.size + demand

omit [Modulus p] in
theorem States.trans {m n d e : Nat} (hab : States settings m d a b)
    (hbc : States settings n e b c) : States settings (m + n) (d + e) a c := by
  obtain ⟨first, hFirst, hAdds, hExact, hSize⟩ := hab
  obtain ⟨second, hSecond, hAdds', hExact', hSize'⟩ := hbc
  exact ⟨first + second, Nat.add_le_add hFirst hSecond, hAdds.trans hAdds',
    fun h => by rw [hExact h, hExact' h], by omega⟩

theorem operand_states (draft : Draft p) (settings : Settings) (table : VariableTable p)
    (e : Expr p) : States settings 0 e.merges draft (draft.operand settings table e).2 :=
  have h := operand_adds draft settings table e
  ⟨0, Nat.le_refl 0, h.1, fun _ => rfl, h.2⟩

theorem operand?_states (draft : Draft p) (settings : Settings) (table : VariableTable p)
    (e : Option (Expr p)) :
    States settings 0 ((e.map Expr.merges).getD 0) draft
      (draft.operand? settings table e).2 := by
  cases e with
  | none => exact ⟨0, Nat.le_refl 0, .refl draft, fun _ => rfl, Nat.le_refl _⟩
  | some e => exact operand_states draft settings table e

theorem emitGeneric_states {k : HalfCoeffs p} {l r o : Operand p}
    (h : draft.emitGeneric settings assertion k l r o = (.ok (), next)) :
    States settings 1 0 draft next := by
  rw [emitGeneric] at h
  split_ifs at h with hFold hZero
  · cases h
    exact ⟨0, Nat.zero_le 1, .refl draft, fun hKeep => by simp [hKeep] at hFold, Nat.le_refl _⟩
  · cases h
  · cases h
    exact ⟨1, Nat.le_refl 1, (AddsHalves.refl draft).emit_half _, fun _ => rfl, Nat.le_refl _⟩

theorem emitEqual_states {x y : Expr p}
    (h : draft.emitEqual settings table assertion x y = (.ok (), next)) :
    States settings 1 (x.vars.length + y.vars.length - 3) draft next := by
  have hLength := table.resolveAs_length_le (x.linear - y.linear) settings.normalizeOperands
  have hVars : (x.linear - y.linear).terms.length = x.vars.length + y.vars.length := by
    have hSub := congrArg List.length (LinearForm.sub_vars x.linear y.linear)
    simpa using hSub
  rw [emitEqual] at h
  simp only at h
  split_ifs at h with hFalse hTrue
  · cases h
  · cases h
    exact ⟨0, Nat.zero_le 1, .refl draft, fun hKeep => by simp [hKeep] at hTrue,
      Nat.le_add_right _ _⟩
  · cases h
    obtain ⟨hAdds, hSize⟩ := reduce_adds 3 draft
      (signalTerms (table.resolveAs (x.linear - y.linear) settings.normalizeOperands))
    rw [signalTerms, List.length_map] at hSize
    refine ⟨1, Nat.le_refl 1, hAdds.emit_half _, fun _ => rfl, hSize.trans ?_⟩
    omega

theorem emitRawHalf_states {operands : List (Expr p)} {k : HalfCoeffs p} {start : Nat}
    (h : draft.emitRawHalf settings table assertion operands k start = (.ok (), next)) :
    States settings (if k = .zero then 0 else 1) (Constraint.rawHalfDemand operands k start) draft
      next := by
  rw [emitRawHalf] at h
  rw [Constraint.rawHalfDemand]
  split_ifs at h ⊢ with hZero
  · cases h
    exact ⟨0, Nat.le_refl 0, .refl draft, fun _ => rfl, Nat.le_refl _⟩
  · have hLeft := operand?_states draft settings table operands[start]?
    have hRight := operand?_states _ settings table operands[start + 1]? |> hLeft.trans
    have hOut := operand?_states _ settings table operands[start + 2]? |> hRight.trans
    simpa using hOut.trans (emitGeneric_states h)

theorem reduceFrom_ne_nil (keep : Nat) (draft : Draft p) (head : Residue p × Signal)
    (rest : List (Residue p × Signal)) : (draft.reduceFrom keep head rest).1 ≠ [] := by
  induction rest generalizing draft head with
  | nil => simp [reduceFrom]
  | cons following rest ih =>
      rw [reduceFrom]
      split_ifs
      · exact ih _ _
      · simp

/-- An operand has the constant of its resolved form, and no signal only if the form has no term. -/
theorem operand_resolved (draft : Draft p) (settings : Settings) (table : VariableTable p)
    (e : Expr p) :
    (draft.operand settings table e).1.constant =
        (table.resolveAs e.linear settings.normalizeOperands).constant ∧
      ((draft.operand settings table e).1.signal = none ↔
        (table.resolveAs e.linear settings.normalizeOperands).terms = []) := by
  rw [operand]
  generalize table.resolveAs e.linear settings.normalizeOperands = form
  obtain ⟨terms, constant⟩ := form
  cases terms with
  | nil => exact ⟨rfl, by simp [signalTerms, reduce]⟩
  | cons term terms =>
      have hSome := reduceFrom_ne_nil 1 draft (term.1, .var term.2) (signalTerms ⟨terms, constant⟩)
      have hReduce : draft.reduce 1 (signalTerms ⟨term :: terms, constant⟩) =
        draft.reduceFrom 1 (term.1, .var term.2) (signalTerms ⟨terms, constant⟩) := rfl
      rw [← hReduce] at hSome
      simp only
      split
      · rename_i hNil
        exact absurd (congrArg Prod.fst hNil) hSome
      · exact ⟨rfl, by simp⟩

/-- What lowering an assertion adds: halves alone, or the definitions of the cells of the row that
it asks for and the row. -/
theorem lower_ok_cases (h : draft.lower settings table assertion = (.ok (), next)) :
    table.rowFor settings assertion.constraint = none ∧
      States settings assertion.constraint.statements assertion.constraint.auxDemand draft next ∨
    ∃ request, table.rowFor settings assertion.constraint = some request ∧
      next = (materializeAll settings table draft request.operands).2.emit
        (.row request.kind (materializeAll settings table draft request.operands).1
          request.coeffs) ∧
      request.kind ≠ .generic ∧ assertion.constraint.statements = 1 ∧
      assertion.constraint.auxDemand = (request.operands.map Expr.cellDemand).sum ∧
      request.operands.flatMap Expr.vars = assertion.constraint.vars := by
  obtain ⟨label, constraint⟩ := assertion
  cases constraint with
  | equal x y => exact .inl ⟨rfl, emitEqual_states h⟩
  | product x y z =>
      have hLeft := operand_states draft settings table x
      have hRight := hLeft.trans (operand_states _ settings table y)
      have hOut := hRight.trans (operand_states _ settings table z)
      exact .inl ⟨rfl, hOut.trans (emitGeneric_states h)⟩
  | square x y =>
      have hLeft := operand_states draft settings table x
      have hOut := hLeft.trans (operand_states _ settings table y)
      exact .inl ⟨rfl, hOut.trans (emitGeneric_states h)⟩
  | boolean x =>
      have hLeft := operand_states draft settings table x
      exact .inl ⟨rfl, hLeft.trans (emitGeneric_states h)⟩
  | range x bits variant =>
      cases bits with
      | zero => exact .inl ⟨rfl, emitEqual_states h⟩
      | succ bits =>
          obtain ⟨hConstant, hSignal⟩ := operand_resolved draft settings table x
          simp only [lower] at h
          split_ifs at h with hFold hFits
          · cases h
            obtain ⟨hAdds, hSize⟩ := operand_adds draft settings table x
            refine .inl ⟨?_, 0, Nat.zero_le 1, hAdds, fun hKeep => by simp [hKeep] at hFold,
              hSize.trans ?_⟩
            · rw [hConstant] at hFits
              simp [VariableTable.rowFor, LinearForm.constant?, hFold.1, hSignal.mp hFold.2, hFits]
            · exact Nat.add_le_add_left (Nat.le_add_right _ _) _
          · cases h
          · cases h
            refine .inr ⟨⟨variant.kind, [x], [.ofNat p (bits + 1)]⟩, ?_, rfl, ?_, rfl,
              by simp [Constraint.auxDemand], by simp [Constraint.vars]⟩
            · rw [hSignal] at hFold
              refine if_neg fun hDecided => hFold ⟨hDecided.1, ?_⟩
              by_contra hTerms
              simp [LinearForm.constant?, hTerms] at hDecided
            · cases variant <;> simp [RangeVariant.kind]
  | raw kind operands coeffs =>
      by_cases hKind : kind = .generic
      · subst hKind
        simp only [lower] at h
        split at h
        · cases h
        · rename_i middle hFirst
          exact .inl ⟨rfl, (emitRawHalf_states hFirst).trans (emitRawHalf_states h)⟩
      · rw [lower_raw_other draft settings table label hKind] at h
        cases h
        refine .inr ⟨⟨kind, operands, coeffs⟩, if_neg hKind, rfl, hKind, ?_, ?_, rfl⟩
        · exact Constraint.statements_other hKind operands coeffs
        · exact Constraint.auxDemand_other hKind operands coeffs

/-- With shared rows an assertion takes at most its plain rows, and one for each auxiliary variable
that is new and holds a variable which is not free. -/
theorem lower_rowCount_le [Fact p.Prime] (hTable : table.WellFormed)
    (hVars : ∀ x ∈ assertion.constraint.vars, x < table.size)
    (h : draft.lower settings table assertion = (.ok (), next)) :
    next.rowCount + draft.relatedCount table ≤
      draft.rowCount + assertion.constraint.plainRows + next.relatedCount table := by
  rw [Constraint.plainRows]
  rcases lower_ok_cases h with ⟨-, extra, hExtra, hAdds, -, hSize⟩ |
    ⟨request, -, rfl, -, hOne, hDemand, hOperands⟩
  · have hRows := hAdds.rowCount_le
    have hCount := hAdds.relatedCount_le table
    omega
  · rw [← hOperands] at hVars
    have hAdds := materializeAll_adds draft settings table request.operands
    have hRows := hAdds.rowCount_le
    have hCount := hAdds.relatedCount_le table
    have hCost := materializeAll_cost draft settings hTable hVars
    rw [rowCount_emit_row, relatedCount_emit, hOne, hDemand]
    omega

/-- Without optimization an assertion takes the rows that state it, and one for each new auxiliary
variable, which are at most its demand. -/
theorem lower_unoptimized (hFold : settings.foldConstants = false)
    (hNormalize : settings.normalizeOperands = false) (hTable : table.Unrelated)
    (h : draft.lower settings table assertion = (.ok (), next)) :
    next.emitted.size + draft.aux.size =
        draft.emitted.size + next.aux.size + assertion.constraint.statements ∧
      next.aux.size ≤ draft.aux.size + assertion.constraint.auxDemand := by
  have hAdded {m : Nat} {after : Draft p} (hAdds : AddsHalves m draft after) :
      after.emitted.size + draft.aux.size = draft.emitted.size + after.aux.size + m := by
    obtain ⟨halves, hEmitted, hCount⟩ := hAdds.emitted
    have hLength : after.emitted.size = draft.emitted.size + halves.length := by
      simpa using congrArg List.length hEmitted
    omega
  rcases lower_ok_cases h with ⟨-, extra, -, hAdds, hExact, hSize⟩ |
    ⟨request, -, rfl, -, hOne, hDemand, -⟩
  · rw [← hExact hFold]
    exact ⟨hAdded hAdds, hSize⟩
  · have hAll := hAdded (materializeAll_adds draft settings table request.operands)
    have hSize := materializeAll_size_le_of_unrelated draft hNormalize hTable request.operands
    rw [hOne, hDemand, emit_aux, emit_emitted, Array.size_push]
    exact ⟨by omega, hSize⟩

theorem lowerAll_rowCount_le [Fact p.Prime] (hTable : table.WellFormed)
    {assertions : List (Assertion p)}
    (hVars : ∀ k ∈ assertions, ∀ x ∈ k.constraint.vars, x < table.size)
    (h : lowerAll settings table draft assertions = (.ok (), next)) :
    next.rowCount + draft.relatedCount table ≤ draft.rowCount +
      (assertions.map fun k => k.constraint.plainRows).sum + next.relatedCount table := by
  induction assertions generalizing draft with
  | nil =>
      cases h
      exact Nat.le_refl _
  | cons k rest ih =>
      rw [lowerAll] at h
      split at h
      · cases h
      · rename_i middle hLower
        have hFirst := lower_rowCount_le hTable (hVars k List.mem_cons_self) hLower
        have hRest := ih (fun k hk => hVars k (List.mem_cons_of_mem _ hk)) h
        rw [List.map_cons, List.sum_cons]
        omega

theorem lowerAll_unoptimized (hFold : settings.foldConstants = false)
    (hNormalize : settings.normalizeOperands = false) (hTable : table.Unrelated)
    {assertions : List (Assertion p)}
    (h : lowerAll settings table draft assertions = (.ok (), next)) :
    next.emitted.size + draft.aux.size = draft.emitted.size + next.aux.size +
        (assertions.map fun k => k.constraint.statements).sum ∧
      next.aux.size ≤ draft.aux.size + (assertions.map fun k => k.constraint.auxDemand).sum := by
  induction assertions generalizing draft with
  | nil =>
      cases h
      exact ⟨rfl, Nat.le_refl _⟩
  | cons k rest ih =>
      rw [lowerAll] at h
      split at h
      · cases h
      · rename_i middle hLower
        obtain ⟨hFirst, hFirstSize⟩ := lower_unoptimized hFold hNormalize hTable hLower
        obtain ⟨hRest, hRestSize⟩ := ih h
        simp only [List.map_cons, List.sum_cons]
        exact ⟨by omega, by omega⟩

/-- Definitions are different from each other, so those that hold a variable which is not free are
no more than these variables. -/
theorem WellFormed.relatedCount_le {live : Nat → Prop} (h : draft.WellFormed live)
    (table : VariableTable p) : draft.relatedCount table ≤ table.related.length := by
  have hNodup : draft.aux.toList.Nodup := by
    rw [List.nodup_iff_getElem?_ne_getElem?]
    intro i j hij hj hSame
    have hDef : draft.aux[j]? = some draft.aux[j] := Array.getElem?_eq_getElem (by simpa using hj)
    rw [Array.getElem?_toList, Array.getElem?_toList, hDef] at hSame
    have hi := (h.known _ i).mpr hSame
    rw [(h.known _ j).mpr hDef] at hi
    exact absurd (Option.some.inj hi).symm (Nat.ne_of_lt hij)
  have hSub : draft.aux.toList.filter (fun d => d ∈ table.relatedDefs) ⊆ table.relatedDefs := by
    intro d hd
    simpa using (List.mem_filter.mp hd).2
  calc
    draft.relatedCount table =
        (draft.aux.toList.filter fun d => d ∈ table.relatedDefs).length :=
      List.countP_eq_length_filter
    _ ≤ table.relatedDefs.length := ((hNodup.filter _).subperm hSub).length_le
    _ = table.related.length := List.length_map _

end Draft

end ArithCircuit
