import ArithCircuit.Lowering.Rows
import ArithCircuit.Proofs.VariableTable
import Mathlib.Tactic.LinearCombination

/-! Drafts and the values of their signals. A definition that is already known is shared, so each
auxiliary variable stands for the sum that defines it, whoever asked for it first. Reducing an
operand emits defining halves only, and these say nothing once the auxiliary variables have the
values of their definitions. -/
namespace ArithCircuit

namespace Signal

variable {p : Nat} [Modulus p]

/-- The value in a register; one that is not used holds zero. -/
def register (σ : Signal → Residue p) : Option Signal → Residue p
  | none => 0
  | some signal => σ signal

/-- The values of all signals, from those of the variables and those of the auxiliary ones. -/
def valuation (onVars onAux : Nat → Residue p) : Signal → Residue p
  | .var index => onVars index
  | .aux index => onAux index

/-- The sum of scaled signals. -/
def sumAt (σ : Signal → Residue p) (terms : List (Residue p × Signal)) : Residue p :=
  (terms.map fun term => term.1 * σ term.2).sum

@[simp] theorem sumAt_nil (σ : Signal → Residue p) : sumAt σ [] = 0 := rfl

@[simp] theorem sumAt_cons (σ : Signal → Residue p) (term : Residue p × Signal)
    (terms : List (Residue p × Signal)) :
    sumAt σ (term :: terms) = term.1 * σ term.2 + sumAt σ terms := by
  simp [sumAt]

/-- A signal that may be used when `count` auxiliary variables exist: one of them, or a variable
that is live. -/
def InScope (live : Nat → Prop) (count : Nat) : Signal → Prop
  | .var index => live index
  | .aux index => index < count

theorem InScope.mono {live : Nat → Prop} {count count' : Nat} {signal : Signal}
    (h : signal.InScope live count) (hCount : count ≤ count') : signal.InScope live count' := by
  cases signal with
  | var index => exact h
  | aux index => exact Nat.lt_of_lt_of_le h hCount

theorem InScope.imp {live live' : Nat → Prop} (hLive : ∀ x, live x → live' x) {count : Nat}
    {signal : Signal} (h : signal.InScope live count) : signal.InScope live' count := by
  cases signal with
  | var index => exact hLive index h
  | aux index => exact h

theorem code_injective {s t : Signal} (h : s.code = t.code) : s = t := by
  cases s <;> cases t <;> simp only [code, Signal.var.injEq, Signal.aux.injEq] at h ⊢ <;> omega

end Signal

namespace AuxDef

variable {p : Nat}

theorem code_injective {d e : AuxDef p} (h : d.code = e.code) : d = e := by
  obtain ⟨terms, constant⟩ := d
  obtain ⟨terms', constant'⟩ := e
  have hTerms (left right : List (Residue p × Signal))
      (h : left.flatMap (fun term => [term.1.val, term.2.code]) =
        right.flatMap fun term => [term.1.val, term.2.code]) : left = right := by
    induction left generalizing right with
    | nil =>
        cases right with
        | nil => rfl
        | cons term rest => simp at h
    | cons term rest ih =>
        cases right with
        | nil => simp at h
        | cons term' rest' =>
            simp only [List.flatMap_cons, List.cons_append, List.nil_append, List.cons.injEq] at h
            obtain ⟨hCoeff, hSignal, hRest⟩ := h
            have hTerm : term = term' :=
              Prod.ext (Residue.ext hCoeff) (Signal.code_injective hSignal)
            rw [hTerm, ih rest' hRest]
  simp only [code, List.cons.injEq] at h
  rw [Residue.ext h.1, hTerms terms terms' h.2]

variable [Modulus p]

/-- What a definition is worth. -/
def value (σ : Signal → Residue p) (definition : AuxDef p) : Residue p :=
  Signal.sumAt σ definition.terms + definition.constant

theorem value_congr {σ τ : Signal → Residue p} {definition : AuxDef p}
    (h : ∀ term ∈ definition.terms, σ term.2 = τ term.2) :
    definition.value σ = definition.value τ := by
  have hTerms : definition.terms.map (fun term => term.1 * σ term.2) =
      definition.terms.map fun term => term.1 * τ term.2 :=
    List.map_congr_left fun term hTerm => by rw [h term hTerm]
  rw [value, value, Signal.sumAt, Signal.sumAt, hTerms]

end AuxDef

namespace Half

variable {p : Nat} [Modulus p]

/-- The registers of the half satisfy its equation. -/
def Holds (σ : Signal → Residue p) (half : Half p) : Prop :=
  half.coeffs.residual (Signal.register σ half.left) (Signal.register σ half.right)
    (Signal.register σ half.out) = 0

theorem sumZero_holds_iff (σ : Signal → Residue p) {terms : List (Residue p × Signal)}
    (hTerms : terms.length ≤ 3) (constant : Residue p) :
    (sumZero terms constant).Holds σ ↔ Signal.sumAt σ terms + constant = 0 := by
  have hResidual (a b c l r o : Residue p) :
      (⟨a, b, c, 0, constant⟩ : HalfCoeffs p).residual l r o =
        a * l + b * r + c * o + constant := by
    simp only [HalfCoeffs.residual]
    ring
  rw [Holds, sumZero, hResidual]
  match terms, hTerms with
  | [], _ => simp [signalAt, coeffAt, Signal.register]
  | [x], _ => simp [signalAt, coeffAt, Signal.register]
  | [x, y], _ => simp [signalAt, coeffAt, Signal.register]
  | [x, y, z], _ => simp [signalAt, coeffAt, Signal.register, add_assoc]

theorem defining_holds_iff (σ : Signal → Residue p) {definition : AuxDef p}
    (hTerms : definition.terms.length ≤ 2) (signal : Signal) :
    (defining definition signal).Holds σ ↔ σ signal = definition.value σ := by
  obtain ⟨terms, constant⟩ := definition
  have hMove : ∀ x : Residue p, x + -1 * σ signal + constant = 0 ↔ σ signal = x + constant := by
    intro x
    constructor <;> intro h <;> linear_combination -h
  have hResidual : ∀ l r a b : Residue p,
      (⟨a, b, -1, 0, constant⟩ : HalfCoeffs p).residual l r (σ signal) =
        a * l + b * r + -1 * σ signal + constant := by
    intro l r a b
    simp only [HalfCoeffs.residual]
    ring
  rw [Holds, defining]
  simp only [Signal.register]
  rw [hResidual, hMove]
  match terms, hTerms with
  | [], _ => simp [signalAt, coeffAt, AuxDef.value]
  | [x], _ => simp [signalAt, coeffAt, AuxDef.value]
  | [x, y], _ => simp [signalAt, coeffAt, AuxDef.value]

end Half

namespace Emission

variable {p : Nat} [Modulus p]

/-- The equation of a half holds. Rows of other kinds have none. -/
def Holds (σ : Signal → Residue p) : Emission p → Prop
  | .half equation => equation.Holds σ
  | .row _ _ _ => True

/-- All signals are in scope, and a row that is no half is of another kind than generic and holds
what it is given. -/
def Proper (live : Nat → Prop) (count : Nat) : Emission p → Prop
  | .half equation => ∀ signal, some signal ∈ equation.registers → signal.InScope live count
  | .row kind cells coeffs =>
    kind ≠ .generic ∧ kind.checkArity cells.length coeffs.length = .ok () ∧
      ∀ signal ∈ cells, signal.InScope live count

omit [Modulus p] in
theorem Proper.mono {live : Nat → Prop} {count count' : Nat} {emission : Emission p}
    (h : emission.Proper live count) (hCount : count ≤ count') : emission.Proper live count' := by
  cases emission with
  | half equation => exact fun signal hSignal => (h signal hSignal).mono hCount
  | row kind cells coeffs =>
      exact ⟨h.1, h.2.1, fun signal hSignal => (h.2.2 signal hSignal).mono hCount⟩

omit [Modulus p] in
theorem Proper.imp {live live' : Nat → Prop} (hLive : ∀ x, live x → live' x) {count : Nat}
    {emission : Emission p} (h : emission.Proper live count) : emission.Proper live' count := by
  cases emission with
  | half equation => exact fun signal hSignal => (h signal hSignal).imp hLive
  | row kind cells coeffs =>
      exact ⟨h.1, h.2.1, fun signal hSignal => (h.2.2 signal hSignal).imp hLive⟩

end Emission

namespace Operand

variable {p : Nat} [Modulus p]

/-- What an operand is worth. -/
def value (σ : Signal → Residue p) (x : Operand p) : Residue p :=
  x.scale * Signal.register σ x.signal + x.constant

theorem value_of_none (σ : Signal → Residue p) {x : Operand p} (h : x.signal = none) :
    x.value σ = x.constant := by
  simp [value, h, Signal.register]

@[simp] theorem value_zero (σ : Signal → Residue p) : (zero : Operand p).value σ = 0 := by
  simp [value, zero, Signal.register]

end Operand

/-- The variables that represent the given ones are live. -/
def VariableTable.LiveReps {p : Nat} [Modulus p] (table : VariableTable p) (live : Nat → Prop)
    (vars : List Nat) : Prop :=
  ∀ x ∈ vars, ∀ r c o, table.rep x = .var r c o → live r

theorem VariableTable.LiveReps.subset {p : Nat} [Modulus p] {table : VariableTable p}
    {live : Nat → Prop} {vars vars' : List Nat} (h : table.LiveReps live vars)
    (hSubset : vars' ⊆ vars) : table.LiveReps live vars' :=
  fun x hx => h x (hSubset hx)

namespace Draft

variable {p : Nat} [Modulus p]

/-- Every auxiliary variable has the value of its definition. -/
def Solves (σ : Signal → Residue p) (draft : Draft p) : Prop :=
  ∀ (k : Nat) (d : AuxDef p), draft.aux[k]? = some d → σ (.aux k) = d.value σ

/-- The index knows exactly the definitions, a definition refers to live variables and earlier
auxiliary ones, and its defining half has been emitted before anything else that uses it. -/
structure WellFormed (live : Nat → Prop) (draft : Draft p) : Prop where
  known : ∀ (d : AuxDef p) (k : Nat), draft.known[d.code]? = some k ↔ draft.aux[k]? = some d
  short : ∀ (k : Nat) (d : AuxDef p), draft.aux[k]? = some d → d.terms.length ≤ 2
  earlier : ∀ (k : Nat) (d : AuxDef p), draft.aux[k]? = some d →
    ∀ term ∈ d.terms, term.2.InScope live k
  defined : ∀ (k : Nat) (d : AuxDef p), draft.aux[k]? = some d → ∃ earlier later,
    draft.emitted.toList = earlier ++ .half (.defining d (.aux k)) :: later ∧
      ∀ emission ∈ earlier, emission.Proper live k
  proper : ∀ emission ∈ draft.emitted.toList, emission.Proper live draft.aux.size

/-- One draft continues another. Where the auxiliary variables have the values of their
definitions, what was added says exactly that the condition holds. -/
structure Emits (live : Nat → Prop) (condition : (Signal → Residue p) → Prop)
    (before after : Draft p) : Prop where
  wellFormed : after.WellFormed live
  aux : before.aux.toList <+: after.aux.toList
  emitted : ∃ added, after.emitted.toList = before.emitted.toList ++ added ∧
    ∀ σ, after.Solves σ → ((∀ emission ∈ added, emission.Holds σ) ↔ condition σ)

variable {live : Nat → Prop} {a b c draft : Draft p} {P Q : (Signal → Residue p) → Prop}

theorem WellFormed.defining_mem (h : draft.WellFormed live) {k : Nat} {d : AuxDef p}
    (hDef : draft.aux[k]? = some d) : .half (.defining d (.aux k)) ∈ draft.emitted.toList := by
  obtain ⟨earlier, later, hEmitted, -⟩ := h.defined k d hDef
  rw [hEmitted]
  exact List.mem_append_right _ List.mem_cons_self

/-- A valuation that satisfies all emitted halves gives auxiliary variables their values. -/
theorem WellFormed.solves (h : draft.WellFormed live) {σ : Signal → Residue p}
    (hHolds : ∀ emission ∈ draft.emitted.toList, emission.Holds σ) : draft.Solves σ :=
  fun k d hDef =>
    (Half.defining_holds_iff σ (h.short k d hDef) (.aux k)).mp (hHolds _ (h.defining_mem hDef))

/-- Whatever the variables are worth, the auxiliary ones can be given values that agree with their
definitions. -/
theorem WellFormed.exists_solves (h : draft.WellFormed live) (u : Nat → Residue p) :
    ∃ σ, σ ∘ Signal.var = u ∧ draft.Solves σ := by
  have hUpTo (n : Nat) : ∃ σ, σ ∘ Signal.var = u ∧
      ∀ (k : Nat) (d : AuxDef p), k < n → draft.aux[k]? = some d → σ (.aux k) = d.value σ := by
    induction n with
    | zero =>
        exact ⟨Signal.valuation u fun _ => 0, rfl, fun k d hk => absurd hk (Nat.not_lt_zero k)⟩
    | succ n ih =>
        obtain ⟨σ, hVars, hSolves⟩ := ih
        cases hLast : draft.aux[n]? with
        | none =>
            refine ⟨σ, hVars, fun k d hk hDef => hSolves k d ?_ hDef⟩
            have hne : k ≠ n := by
              rintro rfl
              rw [hLast] at hDef
              cases hDef
            omega
        | some last =>
            refine ⟨Function.update σ (.aux n) (last.value σ), ?_, fun k d hk hDef => ?_⟩
            · rw [← hVars]
              funext index
              exact Function.update_of_ne (by simp) _ _
            · -- definitions refer to earlier variables, which keep their values
              have hSame : d.value (Function.update σ (.aux n) (last.value σ)) = d.value σ := by
                refine AuxDef.value_congr fun term hTerm => Function.update_of_ne ?_ _ _
                intro hEq
                have hScope := h.earlier k d hDef term hTerm
                rw [hEq] at hScope
                have : n < k := hScope
                omega
              rw [hSame]
              by_cases hk' : k = n
              · subst hk'
                obtain rfl := Option.some.inj (hLast.symm.trans hDef)
                exact Function.update_self _ _ _
              · rw [Function.update_of_ne (by simp [hk'])]
                exact hSolves k d (by omega) hDef
  obtain ⟨σ, hVars, hSolves⟩ := hUpTo draft.aux.size
  exact ⟨σ, hVars, fun k d hDef => hSolves k d (Array.getElem?_eq_some_iff.mp hDef).1 hDef⟩

theorem empty_wellFormed : (empty : Draft p).WellFormed live where
  known d k := by simp [empty]
  short k d hDef := by simp [empty] at hDef
  earlier k d hDef := by simp [empty] at hDef
  defined k d hDef := by simp [empty] at hDef
  proper emission hMem := by simp [empty] at hMem

namespace Emits

theorem refl (h : draft.WellFormed live) : Emits live (fun _ => True) draft draft :=
  ⟨h, List.prefix_refl _, [], by simp, by simp⟩

theorem size_le (h : Emits live P a b) : a.aux.size ≤ b.aux.size := by
  simpa using h.aux.length_le

theorem solves (h : Emits live P a b) {σ : Signal → Residue p} (hb : b.Solves σ) :
    a.Solves σ := by
  intro k d hDef
  refine hb k d ?_
  obtain ⟨rest, hRest⟩ := h.aux
  rw [← Array.getElem?_toList] at hDef ⊢
  have hLess : k < a.aux.toList.length := (List.getElem?_eq_some_iff.mp hDef).1
  rw [← hRest, List.getElem?_append_left hLess, hDef]

theorem trans (hab : Emits live P a b) (hbc : Emits live Q b c) :
    Emits live (fun σ => P σ ∧ Q σ) a c := by
  obtain ⟨first, hFirst, hP⟩ := hab.emitted
  obtain ⟨second, hSecond, hQ⟩ := hbc.emitted
  refine ⟨hbc.wellFormed, hab.aux.trans hbc.aux, first ++ second, ?_, fun σ hσ => ?_⟩
  · rw [hSecond, hFirst, List.append_assoc]
  · rw [← hP σ (hbc.solves hσ), ← hQ σ hσ, List.forall_mem_append]

theorem congr (h : Emits live P a b) (hPQ : ∀ σ, b.Solves σ → (P σ ↔ Q σ)) :
    Emits live Q a b := by
  obtain ⟨added, hAdded, hP⟩ := h.emitted
  exact ⟨h.wellFormed, h.aux, added, hAdded, fun σ hσ => (hP σ hσ).trans (hPQ σ hσ)⟩

/-- Definitions before a step do not change what it states. -/
theorem after_definitions (hab : Emits live (fun _ => True) a b) (hbc : Emits live Q b c) :
    Emits live Q a c :=
  (hab.trans hbc).congr fun _ _ => and_iff_right trivial

end Emits

omit [Modulus p] in
@[simp] theorem emit_aux (draft : Draft p) (emission : Emission p) :
    (draft.emit emission).aux = draft.aux := rfl

omit [Modulus p] in
@[simp] theorem emit_emitted (draft : Draft p) (emission : Emission p) :
    (draft.emit emission).emitted = draft.emitted.push emission := rfl

/-- Emitting without a new definition. -/
theorem emit_emits (h : draft.WellFormed live) {emission : Emission p}
    (hProper : emission.Proper live draft.aux.size) :
    Emits live (fun σ => emission.Holds σ) draft (draft.emit emission) where
  wellFormed :=
    { known := h.known
      short := h.short
      earlier := h.earlier
      defined := fun k d hDef => by
        obtain ⟨earlier, later, hEmitted, hEarlier⟩ := h.defined k d hDef
        refine ⟨earlier, later ++ [emission], ?_, hEarlier⟩
        simp only [emit, Array.toList_push, hEmitted, List.append_assoc, List.cons_append]
      proper := fun e he => by
        simp only [emit, Array.toList_push] at he ⊢
        rcases List.mem_append.mp he with he | he
        · exact h.proper e he
        · rw [List.mem_singleton.mp he]
          exact hProper }
  aux := List.prefix_refl _
  emitted := ⟨[emission], by simp [emit], by simp⟩

omit [Modulus p] in
theorem signalAt_inScope {count : Nat} {terms : List (Residue p × Signal)}
    (hScope : ∀ term ∈ terms, term.2.InScope live count) {i : Nat} {signal : Signal}
    (h : Half.signalAt terms i = some signal) : signal.InScope live count := by
  obtain ⟨term, hTerm, rfl⟩ := Option.map_eq_some_iff.mp h
  exact hScope term (List.mem_of_getElem? hTerm)

/-- A defining half uses the signals of its definition and the one defined. -/
theorem defining_proper {count : Nat} {d : AuxDef p}
    (hScope : ∀ term ∈ d.terms, term.2.InScope live count) :
    (Emission.half (Half.defining d (.aux count))).Proper live (count + 1) := by
  intro signal hSignal
  simp only [Half.registers, Half.defining, List.mem_cons, List.not_mem_nil, or_false] at hSignal
  rcases hSignal with hLeft | hRight | hOut
  · exact (signalAt_inScope hScope hLeft.symm).mono (Nat.le_succ _)
  · exact (signalAt_inScope hScope hRight.symm).mono (Nat.le_succ _)
  · rw [Option.some.inj hOut]
    exact Nat.lt_succ_self count

omit [Modulus p] in
/-- A look-up by definition, after one definition has been added. -/
theorem known_insert (draft : Draft p) (d e : AuxDef p) (k : Nat) :
    (draft.known.insert d.code k)[e.code]? = if d = e then some k else draft.known[e.code]? := by
  rw [Std.TreeMap.getElem?_insert]
  by_cases hSame : d = e
  · simp [hSame]
  · have hCode : d.code ≠ e.code := fun h => hSame (AuxDef.code_injective h)
    simp [hSame, hCode]

theorem extend_emit_wellFormed (h : draft.WellFormed live) {d : AuxDef p}
    (hNew : draft.known[d.code]? = none) (hShort : d.terms.length ≤ 2)
    (hScope : ∀ term ∈ d.terms, term.2.InScope live draft.aux.size) :
    ((draft.extend d).emit (.half (.defining d (.aux draft.aux.size)))).WellFormed live := by
  have hPush (k : Nat) (e : AuxDef p) : (draft.aux.push d)[k]? = some e ↔
      k = draft.aux.size ∧ d = e ∨ draft.aux[k]? = some e := by
    rw [Array.getElem?_push]
    split_ifs with hk
    · simp [hk]
    · simp [hk]
  have hFresh (k : Nat) : draft.aux[k]? ≠ some d := by
    rw [Ne, ← h.known d k, hNew]
    simp
  refine ⟨fun e k => ?_, fun k e hDef => ?_, fun k e hDef => ?_, fun k e hDef => ?_,
    fun e he => ?_⟩
  · simp only [emit, extend, known_insert, hPush]
    by_cases hSame : d = e
    · subst hSame
      simp [hFresh, eq_comm]
    · simp [hSame, h.known e k]
  · rcases (hPush k e).mp hDef with ⟨-, rfl⟩ | hOld
    · exact hShort
    · exact h.short k e hOld
  · rcases (hPush k e).mp hDef with ⟨rfl, rfl⟩ | hOld
    · exact hScope
    · exact h.earlier k e hOld
  · simp only [emit, extend, Array.toList_push]
    rcases (hPush k e).mp hDef with ⟨rfl, rfl⟩ | hOld
    · exact ⟨_, [], rfl, h.proper⟩
    · obtain ⟨earlier, later, hEmitted, hEarlier⟩ := h.defined k e hOld
      refine ⟨earlier, later ++ [.half (.defining d (.aux draft.aux.size))], ?_, hEarlier⟩
      rw [hEmitted, List.append_assoc, List.cons_append]
  · simp only [emit, extend, Array.toList_push, Array.size_push] at he ⊢
    rcases List.mem_append.mp he with he | he
    · exact (h.proper e he).mono (Nat.le_succ _)
    · rw [List.mem_singleton.mp he]
      exact defining_proper hScope

/-- Defining yields a signal with the value of the definition, shared or new. -/
theorem define_emits (h : draft.WellFormed live) {d : AuxDef p} (hShort : d.terms.length ≤ 2)
    (hScope : ∀ term ∈ d.terms, term.2.InScope live draft.aux.size) :
    ∃ signal next, draft.define d = (signal, next) ∧ Emits live (fun _ => True) draft next ∧
      signal.InScope live next.aux.size ∧ ∀ σ, next.Solves σ → σ signal = d.value σ := by
  cases hKnown : draft.known[d.code]? with
  | some k =>
      have hDef := (h.known d k).mp hKnown
      refine ⟨.aux k, draft, by rw [define, hKnown], .refl h, ?_, fun σ hσ => hσ k d hDef⟩
      exact (Array.getElem?_eq_some_iff.mp hDef).1
  | none =>
      have hNext := extend_emit_wellFormed h hKnown hShort hScope
      have hDef : (draft.aux.push d)[draft.aux.size]? = some d := Array.getElem?_push_size
      refine ⟨.aux draft.aux.size, _, by rw [define, hKnown], ⟨hNext, ?_, ?_⟩, ?_,
        fun σ hσ => hσ _ d hDef⟩
      · simp [emit, extend]
      · refine ⟨[.half (.defining d (.aux draft.aux.size))], by simp [emit, extend], ?_⟩
        intro σ hσ
        have hValue := hσ _ d hDef
        simp [Emission.Holds, Half.defining_holds_iff σ hShort, hValue]
      · simp [emit, extend, Signal.InScope]

/-- Merging leading terms keeps the sum. -/
theorem reduceFrom_emits (keep : Nat) (h : draft.WellFormed live) (head : Residue p × Signal)
    (rest : List (Residue p × Signal))
    (hScope : ∀ term ∈ head :: rest, term.2.InScope live draft.aux.size) :
    ∃ terms next, draft.reduceFrom keep head rest = (terms, next) ∧
      Emits live (fun _ => True) draft next ∧ terms.length ≤ max keep 1 ∧ terms ≠ [] ∧
      (∀ term ∈ terms, term.2.InScope live next.aux.size) ∧
      ∀ σ, next.Solves σ → Signal.sumAt σ terms = Signal.sumAt σ (head :: rest) := by
  induction rest generalizing draft head with
  | nil => exact ⟨[head], draft, rfl, .refl h, by simp, by simp, hScope, fun _ _ => rfl⟩
  | cons following rest ih =>
      by_cases hMerge : keep < rest.length + 2
      · have hPair : ∀ term ∈ [head, following], term.2.InScope live draft.aux.size := by
          intro term hTerm
          refine hScope term ?_
          simp only [List.mem_cons, List.not_mem_nil, or_false] at hTerm ⊢
          exact hTerm.imp_right .inl
        obtain ⟨signal, next, hDefine, hNext, hSignal, hValue⟩ :=
          define_emits h (d := ⟨[head, following], 0⟩) (Nat.le_refl 2) hPair
        have hRest : ∀ term ∈ (1, signal) :: rest, term.2.InScope live next.aux.size := by
          intro term hTerm
          rcases List.mem_cons.mp hTerm with rfl | hTerm
          · exact hSignal
          · exact (hScope term (by simp [hTerm])).mono hNext.size_le
        obtain ⟨terms, final, hReduce, hFinal, hLength, hSome, hTerms, hSum⟩ :=
          ih hNext.wellFormed (1, signal) hRest
        refine ⟨terms, final, ?_, hNext.after_definitions hFinal, hLength, hSome, hTerms,
          fun σ hσ => ?_⟩
        · rw [reduceFrom, if_pos hMerge]
          simp only [hDefine, hReduce]
        · rw [hSum σ hσ, Signal.sumAt_cons, hValue σ (hFinal.solves hσ)]
          simp only [AuxDef.value, Signal.sumAt_cons, Signal.sumAt_nil]
          ring
      · refine ⟨head :: following :: rest, draft, ?_, .refl h, ?_, by simp, hScope,
          fun _ _ => rfl⟩
        · rw [reduceFrom, if_neg hMerge]
        · simp only [List.length_cons]
          omega

theorem reduce_emits {keep : Nat} (hKeep : 1 ≤ keep) (h : draft.WellFormed live)
    (terms : List (Residue p × Signal))
    (hScope : ∀ term ∈ terms, term.2.InScope live draft.aux.size) :
    ∃ fewer next, draft.reduce keep terms = (fewer, next) ∧
      Emits live (fun _ => True) draft next ∧ fewer.length ≤ keep ∧
      (fewer = [] ↔ terms = []) ∧
      (∀ term ∈ fewer, term.2.InScope live next.aux.size) ∧
      ∀ σ, next.Solves σ → Signal.sumAt σ fewer = Signal.sumAt σ terms := by
  cases terms with
  | nil => exact ⟨[], draft, rfl, .refl h, by simp, Iff.rfl, hScope, fun _ _ => rfl⟩
  | cons head rest =>
      obtain ⟨fewer, next, hReduce, hNext, hLength, hSome, hTerms, hSum⟩ :=
        reduceFrom_emits keep h head rest hScope
      exact ⟨fewer, next, hReduce, hNext, by omega, by simp [hSome], hTerms, hSum⟩

variable {table : VariableTable p}

theorem sumAt_signalTerms (σ : Signal → Residue p) (form : LinearForm p) :
    Signal.sumAt σ (signalTerms form) = LinearForm.sumAt (σ ∘ .var) form.terms := by
  simp [Signal.sumAt, LinearForm.sumAt, signalTerms, Function.comp_def]

theorem signalTerms_inScope {form : LinearForm p} {vars : List Nat}
    (hVars : form.terms.map Prod.snd ⊆ vars) (hLive : table.LiveReps live vars)
    (normalize : Bool) (count : Nat) :
    ∀ term ∈ signalTerms (table.resolveAs form normalize), term.2.InScope live count := by
  intro term hTerm
  obtain ⟨old, hOld, rfl⟩ := List.mem_map.mp hTerm
  obtain ⟨x, hx, c, o, hRep⟩ := table.exists_rep_of_mem_resolveAs form normalize
    (List.mem_map_of_mem hOld)
  exact hLive x (hVars hx) _ c o hRep

/-- The reduced form of an operand: its value is that of the expression where every variable is
worth what its representative gives it. -/
theorem operand_emits (h : draft.WellFormed live) (settings : Settings) {e : Expr p}
    (hLive : table.LiveReps live e.vars) :
    ∃ x next, draft.operand settings table e = (x, next) ∧
      Emits live (fun _ => True) draft next ∧
      (∀ signal, x.signal = some signal → signal.InScope live next.aux.size) ∧
      ∀ σ, next.Solves σ → x.value σ = e.value (table.classValue (σ ∘ .var)) := by
  have hVars : e.linear.terms.map Prod.snd ⊆ e.vars := by simp
  have hScope := signalTerms_inScope hVars hLive settings.normalizeOperands draft.aux.size
  obtain ⟨fewer, next, hReduce, hNext, hLength, -, hTerms, hSum⟩ :=
    reduce_emits (Nat.le_refl 1) h _ hScope
  have hValue (σ : Signal → Residue p) (hσ : next.Solves σ) :
      Signal.sumAt σ fewer + (table.resolveAs e.linear settings.normalizeOperands).constant =
        e.value (table.classValue (σ ∘ .var)) := by
    rw [hSum σ hσ, sumAt_signalTerms, ← LinearForm.value_eq, VariableTable.value_resolveAs,
      Expr.value_linear]
  match fewer, hLength with
  | [], _ =>
      refine ⟨_, next, by simp only [operand, hReduce]; rfl, hNext, by simp, fun σ hσ => ?_⟩
      rw [← hValue σ hσ, Operand.value_of_none σ rfl, Signal.sumAt_nil, zero_add]
  | [(scale, signal)], _ =>
      refine ⟨_, next, by simp only [operand, hReduce]; rfl, hNext, ?_, fun σ hσ => ?_⟩
      · rintro signal ⟨⟩
        exact hTerms _ (List.mem_singleton_self _)
      · rw [← hValue σ hσ, Signal.sumAt_cons, Signal.sumAt_nil, add_zero]
        rfl

/-- A register that may be missing is worth zero without an operand. -/
theorem operand?_emits (h : draft.WellFormed live) (settings : Settings) {e : Option (Expr p)}
    (hLive : ∀ e' ∈ e, table.LiveReps live e'.vars) :
    ∃ x next, draft.operand? settings table e = (x, next) ∧
      Emits live (fun _ => True) draft next ∧
      (∀ signal, x.signal = some signal → signal.InScope live next.aux.size) ∧
      ∀ σ, next.Solves σ →
        x.value σ = (e.map (Expr.value (table.classValue (σ ∘ .var)))).getD 0 := by
  cases e with
  | none => exact ⟨.zero, draft, rfl, .refl h, by simp [Operand.zero], fun σ _ => by simp⟩
  | some e => exact operand_emits h settings (hLive e rfl)

/-- A signal that holds an operand. -/
theorem materialize_emits (h : draft.WellFormed live) {x : Operand p}
    (hScope : ∀ signal, x.signal = some signal → signal.InScope live draft.aux.size) :
    ∃ signal next, draft.materialize x = (signal, next) ∧
      Emits live (fun _ => True) draft next ∧ signal.InScope live next.aux.size ∧
      ∀ σ, next.Solves σ → σ signal = x.value σ := by
  cases hSignal : x.signal with
  | none =>
      obtain ⟨signal, next, hDefine, hNext, hIn, hValue⟩ :=
        define_emits h (d := ⟨[], x.constant⟩) (by simp) (by simp)
      refine ⟨signal, next, by simp only [materialize, hSignal, hDefine], hNext, hIn,
        fun σ hσ => ?_⟩
      rw [hValue σ hσ, Operand.value_of_none σ hSignal, AuxDef.value, Signal.sumAt_nil, zero_add]
  | some signal =>
      by_cases hPlain : x.scale = 1 ∧ x.constant = 0
      · refine ⟨signal, draft, by simp only [materialize, hSignal, if_pos hPlain], .refl h,
          hScope signal hSignal, fun σ _ => ?_⟩
        rw [Operand.value, hPlain.1, hPlain.2, hSignal, one_mul, add_zero]
        rfl
      · obtain ⟨held, next, hDefine, hNext, hIn, hValue⟩ :=
          define_emits h (d := ⟨[(x.scale, signal)], x.constant⟩) (by simp)
            (by simpa using hScope signal hSignal)
        refine ⟨held, next, by simp only [materialize, hSignal, if_neg hPlain, hDefine], hNext,
          hIn, fun σ hσ => ?_⟩
        rw [hValue σ hσ, Operand.value, hSignal, AuxDef.value, Signal.sumAt_cons,
          Signal.sumAt_nil, add_zero]
        rfl

/-- The cells of a row that is given directly, one for each operand and with its value. -/
theorem materializeAll_emits (h : draft.WellFormed live) (settings : Settings)
    (operands : List (Expr p)) (hLive : table.LiveReps live (operands.flatMap Expr.vars)) :
    ∃ signals next, materializeAll settings table draft operands = (signals, next) ∧
      Emits live (fun _ => True) draft next ∧ signals.length = operands.length ∧
      (∀ signal ∈ signals, signal.InScope live next.aux.size) ∧
      ∀ σ, next.Solves σ →
        signals.map σ = operands.map (Expr.value (table.classValue (σ ∘ .var))) := by
  induction operands generalizing draft with
  | nil => exact ⟨[], draft, rfl, .refl h, rfl, by simp, by simp⟩
  | cons e rest ih =>
      obtain ⟨x, first, hOperand, hFirst, hIn, hOperandValue⟩ :=
        operand_emits h settings (hLive.subset (by simp) : table.LiveReps live e.vars)
      obtain ⟨signal, second, hMaterialize, hSecond, hSignal, hValue⟩ :=
        materialize_emits hFirst.wellFormed hIn
      obtain ⟨signals, next, hRest, hNext, hLength, hSignals, hValues⟩ :=
        ih hSecond.wellFormed (hLive.subset (by simp))
      refine ⟨signal :: signals, next, ?_,
        hFirst.after_definitions (hSecond.after_definitions hNext), ?_, ?_, fun σ hσ => ?_⟩
      · simp only [materializeAll, hOperand, hMaterialize, hRest]
      · rw [List.length_cons, List.length_cons, hLength]
      · intro s hs
        rcases List.mem_cons.mp hs with rfl | hs
        · exact hSignal.mono hNext.size_le
        · exact hSignals s hs
      · have hHeld := hNext.solves hσ
        rw [List.map_cons, List.map_cons, hValues σ hσ, hValue σ hHeld,
          hOperandValue σ (hSecond.solves hHeld)]

end Draft

end ArithCircuit
