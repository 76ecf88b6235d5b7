import ArithCircuit.Circuit.Compile
import ArithCircuit.Proofs.Absorption
import ArithCircuit.Proofs.Lowering.Cost
import ArithCircuit.Proofs.Reachable
import ArithCircuit.Proofs.SolutionSet

/-! Aliases. Unless equations are offered under the affine policy, classes relate variables only by
being equal: every link has the coefficient one and the offset zero. This survives the composition
of links along a path, since nothing but the identity is composed. A single variable is then put
into a cell as the variable that represents it, without an auxiliary variable, unless it is known to
be a constant. -/
namespace ArithCircuit

/-- A variable as it stands, or a constant. -/
inductive Rep.Plain {p : Nat} [Modulus p] : Rep p → Prop where
  | ofVar (index : Nat) : Plain (.ofVar index)
  | const (value : Residue p) : Plain (.const value)

namespace Forest

variable {p : Nat} [Modulus p] {forest next : Forest p}

/-- Every link says that two variables are equal. -/
def Plain (forest : Forest p) : Prop :=
  ∀ (x parent : Nat) (coeff offset : Residue p),
    forest.nodes[x]? = some (.link parent coeff offset) → coeff = 1 ∧ offset = 0

namespace Plain

theorem empty : (empty : Forest p).Plain := by
  intro x parent coeff offset hNode
  simp [Forest.empty] at hNode

theorem push (h : forest.Plain) : forest.push.Plain :=
  fun x parent coeff offset hNode => h x parent coeff offset (push_link hNode)

theorem direct (h : forest.Plain) {rep : Rep p} (hRep : rep.Plain) (x : Nat) :
    (forest.direct x rep).Plain := by
  intro y parent coeff offset hNode
  rcases direct_link hNode with ⟨-, hNew⟩ | hOld
  · cases hRep with
    | const value => cases hNew
    | ofVar index =>
        obtain ⟨-, rfl, rfl⟩ := Rep.var.inj hNew
        exact ⟨rfl, rfl⟩
  · exact h y parent coeff offset hOld

/-- Along a path of equalities nothing changes. -/
theorem find (h : forest.Plain) {x : Nat} {rep : Rep p} (hFind : forest.find x = some rep) :
    rep.Plain := by
  induction x using Nat.strong_induction_on generalizing rep with
  | _ x ih =>
      rw [Forest.find] at hFind
      split at hFind
      · cases hFind
      · cases hFind
        exact .ofVar x
      · cases hFind
        exact .const _
      · rename_i parent coeff offset hNode
        split_ifs at hFind with hLess
        obtain ⟨older, hOlder, rfl⟩ := Option.map_eq_some_iff.mp hFind
        obtain ⟨rfl, rfl⟩ := h x parent coeff offset hNode
        rw [Rep.affine_one_zero]
        exact ih parent hLess hOlder

theorem compress (h : forest.Plain) (x : Nat) : (forest.compress x).Plain := by
  induction x using Nat.strong_induction_on with
  | _ x ih =>
      rw [Forest.compress]
      split
      · rename_i parent coeff offset hNode
        obtain ⟨rfl, rfl⟩ := h x parent coeff offset hNode
        split_ifs with hLess
        · have hShorter := ih parent hLess
          simp only [Rep.affine_one_zero]
          cases hFind : (forest.compress parent).find parent with
          | none => exact hShorter
          | some rep =>
              exact hShorter.direct (hShorter.find hFind) x
        · exact h
      · exact h

theorem pin? (h : forest.Plain) {root : Nat} {value : Residue p}
    (hPin : forest.pin? root value = some next) : next.Plain := by
  obtain ⟨rfl, -⟩ := pin?_eq_some hPin
  exact h.direct (.const value) root

theorem link? (h : forest.Plain) {child parent : Nat}
    (hLink : forest.link? child parent 1 0 = some next) : next.Plain := by
  obtain ⟨rfl, -⟩ := link?_eq_some hLink
  exact h.direct (.ofVar parent) child

end Plain

end Forest

namespace VariableTable

variable {p : Nat} [Modulus p] {table next : VariableTable p}

/-- What allocations, searches and equations make of an empty table when no equation is offered
under the affine policy. -/
inductive AliasesOnly : VariableTable p → Prop where
  | empty : AliasesOnly empty
  | alloc {table : VariableTable p} (prior : AliasesOnly table) (value : Option (Residue p)) :
      AliasesOnly (table.alloc value)
  | allocPublic {table : VariableTable p} (prior : AliasesOnly table)
      (value : Option (Residue p)) : AliasesOnly (table.allocPublic value)
  | search {table : VariableTable p} (prior : AliasesOnly table) (form : LinearForm p) :
      AliasesOnly (table.compress form)
  | unify {table : VariableTable p} (prior : AliasesOnly table) (form : LinearForm p)
      {policy : Unification} (hPolicy : policy ≠ .affine) (label : Option String) :
      AliasesOnly (table.afterUnify form policy label)

theorem compress_plain (h : table.classes.Plain) (form : LinearForm p) :
    (table.compress form).classes.Plain := by
  rw [compress]
  generalize table.classes = classes at h
  induction form.terms generalizing classes with
  | nil => exact h
  | cons term rest ih => exact ih _ (h.compress term.2)

theorem pin_plain (h : table.classes.Plain) {root : Nat} {value : Residue p}
    (hPin : (table.pin root value).map some = .ok (some next)) : next.classes.Plain := by
  rw [pin] at hPin
  cases hClasses : table.classes.pin? root value with
  | none =>
      rw [hClasses] at hPin
      cases hPin
  | some classes =>
      rw [hClasses] at hPin
      cases hPin
      exact h.pin? hClasses

theorem link_plain (h : table.classes.Plain) {child parent : Nat}
    (hLink : (table.link child parent 1 0).map some = .ok (some next)) : next.classes.Plain := by
  rw [link] at hLink
  cases hClasses : table.classes.link? child parent 1 0 with
  | none =>
      rw [hClasses] at hLink
      cases hLink
  | some classes =>
      rw [hClasses] at hLink
      cases hLink
      exact h.link? hClasses

section Prime

variable [Fact p.Prime]

/-- The equation between two variables that may be absorbed has opposite coefficients, whatever
they are, and is solved by making the variables equal. -/
theorem unify_plain (h : table.classes.Plain) {form : LinearForm p} {policy : Unification}
    (hPolicy : policy ≠ .affine) {label : Option String}
    (hUnify : table.unify form policy label = .ok (some next)) : next.classes.Plain := by
  have hShorter := compress_plain h form
  have hNonzero := (table.resolve form).normalize_coeff_ne_zero
  cases policy with
  | affine => exact absurd rfl hPolicy
  | off => cases hUnify
  | aliases =>
      simp only [unify, reduceCtorEq, if_false, true_and] at hUnify
      generalize (table.resolve form).normalize = normal at hUnify hNonzero
      obtain ⟨terms, constant⟩ := normal
      rcases terms with _ | ⟨⟨c, u⟩, _ | ⟨⟨c', v⟩, _ | ⟨third, rest⟩⟩⟩
      · simp only at hUnify
        split_ifs at hUnify
        cases hUnify
        exact hShorter
      · simp only at hUnify
        split_ifs at hUnify
        · cases hUnify
        · exact pin_plain hShorter hUnify
      · simp only at hUnify
        split_ifs at hUnify with hLeave
        · cases hUnify
        obtain ⟨hOpposite, rfl⟩ : c + c' = 0 ∧ constant = 0 :=
          not_not.mp fun hOther => hLeave (.inr hOther)
        -- the coefficients need not be one and minus one, but their quotient is
        have hv : c' ≠ 0 := hNonzero (c', v) (by simp)
        have hOne : -c / c' = 1 := by
          rw [neg_eq_of_add_eq_zero_right hOpposite, div_self hv]
        rw [hOne, neg_zero, zero_div] at hUnify
        exact link_plain hShorter hUnify
      · cases hUnify

namespace AliasesOnly

theorem plain (h : table.AliasesOnly) : table.classes.Plain := by
  induction h with
  | empty => exact .empty
  | alloc _ value ih => exact ih.push
  | allocPublic _ value ih => exact ih.push
  | search _ form ih => exact compress_plain ih form
  | @unify table _ form policy hPolicy label ih =>
      by_cases hSome : ∃ next, table.unify form policy label = .ok (some next)
      · obtain ⟨next, hUnify⟩ := hSome
        rw [afterUnify_of_some hUnify]
        exact unify_plain ih hPolicy hUnify
      · rw [afterUnify_of_not_some (not_exists.mp hSome)]
        exact compress_plain ih form

theorem rep_plain (h : table.AliasesOnly) (x : Nat) : (table.rep x).Plain := by
  rw [rep]
  cases hFind : table.classes.find x with
  | none => exact .ofVar x
  | some found => exact h.plain.find hFind

end AliasesOnly

end Prime

namespace AliasesOnly

variable {settings : Settings}

theorem absorb (h : table.AliasesOnly) (hSettings : settings.unification ≠ .affine)
    {assertion : Assertion p} (hAbsorb : table.absorb settings assertion = .ok (.absorbed next)) :
    next.AliasesOnly := by
  rcases absorb_cases table settings assertion with
    ⟨a, b, -, ⟨stop, -, hCase⟩ | ⟨final, hUnify, hCase⟩⟩ | hCase
  · rw [hCase] at hAbsorb
    cases hAbsorb
  · rw [hCase] at hAbsorb
    cases hAbsorb
    rw [← afterUnify_of_some hUnify]
    exact h.unify _ hSettings _
  · rw [hCase] at hAbsorb
    cases hAbsorb

theorem absorbAll (h : table.AliasesOnly) (hSettings : settings.unification ≠ .affine)
    (assertions : List (Assertion p)) :
    (VariableTable.absorbAll settings table assertions).2.AliasesOnly := by
  induction assertions generalizing table with
  | nil => exact h
  | cons assertion rest ih =>
      rw [VariableTable.absorbAll]
      cases hAbsorb : table.absorb settings assertion with
      | error stop => exact h
      | ok absorption =>
          cases absorption with
          | absorbed next => exact ih (h.absorb hSettings hAbsorb)
          | kept kept => exact ih h

theorem add (h : table.AliasesOnly) {recording : Recording p}
    (hSettings : recording.settings.unification ≠ .affine) (assertion : Assertion p) :
    (recording.add table assertion).2.2.AliasesOnly := by
  rcases recording.add_cases table assertion with
    ⟨stop, recording', hAdd, -⟩ | ⟨recording', next, hAdd, -, hAbsorb⟩ | ⟨recording', hAdd, -⟩
  · rw [hAdd]
    exact h
  · rw [hAdd]
    exact h.absorb hSettings hAbsorb
  · rw [hAdd]
    exact h

theorem finalize (h : table.AliasesOnly) {recording : Recording p}
    (hSettings : recording.settings.unification ≠ .affine) :
    (recording.finalize table).2.AliasesOnly := by
  have hFinal := h.absorbAll hSettings recording.waiting.toList
  rw [Recording.finalize]
  generalize VariableTable.absorbAll recording.settings table recording.waiting.toList = last
    at hFinal
  obtain ⟨_ | ⟨waiting, unified⟩, final⟩ := last
  · exact hFinal
  · cases hAssemble : recording.assemble final waiting (recording.unified + unified) with
    | error fault =>
        simp only [hAssemble]
        exact hFinal
    | ok circuit =>
        simp only [hAssemble]
        exact hFinal

/-- Without affine equations every variable is represented by a constant or by a variable as it
stands. The tables of recordings with such settings are of this kind from beginning to end. For
them a single variable, whichever way it is spelled, is an operand as the variable that represents
it, and is put into a cell, alone or in a row, without touching the draft, unless its class is
pinned. -/
theorem bare_operands [Fact p.Prime] (h : table.AliasesOnly) :
    (∀ x, (∃ k, table.rep x = .const k) ∨ ∃ r, table.rep x = .var r 1 0) ∧
    (∀ recording : Recording p, recording.settings.unification ≠ .affine →
      (∀ assertion, (recording.add table assertion).2.2.AliasesOnly) ∧
      (recording.finalize table).2.AliasesOnly) ∧
    ∀ (draft : Draft p) settings x (e : Expr p), e.linear = ⟨[(1, x)], 0⟩ →
      (∃ k, table.rep x = .const k ∧ draft.cell settings table e = draft.define ⟨[], k⟩) ∨
      ∃ r, table.rep x = .var r 1 0 ∧
        draft.operand settings table e = (⟨1, some (.var r), 0⟩, draft) ∧
        draft.cell settings table e = (.var r, draft) ∧
        ∀ rest, Draft.materializeAll settings table draft (e :: rest) =
          (.var r :: (Draft.materializeAll settings table draft rest).1,
            (Draft.materializeAll settings table draft rest).2) := by
  have hRep (x : Nat) : (∃ k, table.rep x = .const k) ∨ ∃ r, table.rep x = .var r 1 0 := by
    have hPlain := h.rep_plain x
    generalize table.rep x = rep at hPlain
    cases hPlain with
    | const k => exact .inl ⟨k, rfl⟩
    | ofVar r => exact .inr ⟨r, rfl⟩
  refine ⟨hRep, fun recording hSettings => ⟨h.add hSettings, h.finalize hSettings⟩,
    fun draft settings x e he => ?_⟩
  rcases hRep x with ⟨k, hConst⟩ | ⟨r, hVar⟩
  · refine .inl ⟨k, hConst, ?_⟩
    rw [Draft.cell, Draft.operand_of_pinned draft settings hConst he]
    rfl
  · have hOperand := Draft.operand_of_represented draft settings hVar one_ne_zero he
    have hHeld : draft.materialize ⟨1, some (.var r), 0⟩ = (.var r, draft) := if_pos ⟨rfl, rfl⟩
    refine .inr ⟨r, hVar, hOperand, ?_, fun rest => ?_⟩
    · rw [Draft.cell, hOperand, hHeld]
    · simp only [Draft.materializeAll, hOperand, hHeld]

/-- Equal variables whose equation is not reduced, a second equality that goes on from the first,
and a variable that is pinned with its sign changed. -/
theorem bare_operands_chain :
    let start : VariableTable 7 :=
      (((VariableTable.empty.alloc none).alloc none).alloc none).alloc none
    let equal := start.afterUnify ⟨[(.ofNat 7 2, 1), (.ofNat 7 5, 2)], 0⟩ .aliases none
    let chain := equal.afterUnify ⟨[(1, 0), (-1, 2)], 0⟩ .aliases none
    let table := chain.afterUnify ⟨[(-1, 3)], .ofNat 7 5⟩ .aliases none
    table.rep 2 = .var 0 1 0 ∧ table.rep 3 = .const (.ofNat 7 5) ∧
      Draft.empty.cell Preset.compatible.settings table (.var 2) = (.var 0, Draft.empty) := by
  intro start equal chain table
  have : Fact (Nat.Prime 7) := ⟨by decide⟩
  have hStart : start.AliasesOnly := .alloc (.alloc (.alloc (.alloc .empty none) none) none) none
  have hEqual : equal.AliasesOnly := hStart.unify _ (by decide) none
  have hChain : chain.AliasesOnly := hEqual.unify _ (by decide) none
  have hTable : table.AliasesOnly := hChain.unify _ (by decide) none
  have hRep : table.rep 2 = .var 0 1 0 := by decide +kernel
  refine ⟨hRep, by decide +kernel, ?_⟩
  obtain ⟨-, -, hCell⟩ := hTable.bare_operands
  rcases hCell Draft.empty Preset.compatible.settings 2 (.var 2) rfl with
    ⟨k, hConst, -⟩ | ⟨r, hVar, -, hHeld, -⟩
  · cases hRep.symm.trans hConst
  · obtain ⟨rfl, -, -⟩ := Rep.var.inj (hRep.symm.trans hVar)
    exact hHeld

end AliasesOnly

end VariableTable

end ArithCircuit
