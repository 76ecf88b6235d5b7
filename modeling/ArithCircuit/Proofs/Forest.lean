import ArithCircuit.Forest
import ArithCircuit.Proofs.Residue
import Mathlib.Tactic.LinearCombination

/-! The classes of variables. Along a well-formed forest every search ends at a free representative
or at a constant, and what it returns is exactly what the links and pins say together. Shortening
paths changes no answer. Linking or pinning a free representative adds one equation, and redirects
the answers that ended there. -/
namespace ArithCircuit

namespace Rep

variable {p : Nat} [Modulus p]

@[simp] theorem value_ofVar (w : Nat → Residue p) (x : Nat) : (ofVar x : Rep p).value w = w x := by
  simp [ofVar, value]

theorem value_affine (w : Nat → Residue p) (rep : Rep p) (coeff offset : Residue p) :
    (rep.affine coeff offset).value w = coeff * rep.value w + offset := by
  cases rep with
  | var index c o =>
      simp only [affine, value]
      ring
  | const k => rfl

theorem affine_affine (rep : Rep p) (c o coeff offset : Residue p) :
    (rep.affine c o).affine coeff offset = rep.affine (coeff * c) (coeff * o + offset) := by
  cases rep with
  | var index c' o' =>
      simp only [affine, var.injEq, true_and]
      exact ⟨by ring, by ring⟩
  | const k =>
      simp only [affine, const.injEq]
      ring

@[simp] theorem affine_one_zero (rep : Rep p) : rep.affine 1 0 = rep := by
  cases rep <;> simp [affine]

theorem affine_ofVar (x : Nat) (coeff offset : Residue p) :
    (ofVar x : Rep p).affine coeff offset = .var x coeff offset := by
  simp [ofVar, affine]

/-- Replace the variable of a representative by what that variable is worth. -/
def redirect (f : Nat → Rep p) : Rep p → Rep p
  | .var index coeff offset => (f index).affine coeff offset
  | .const k => .const k

theorem redirect_affine (f : Nat → Rep p) (rep : Rep p) (coeff offset : Residue p) :
    (rep.affine coeff offset).redirect f = (rep.redirect f).affine coeff offset := by
  cases rep with
  | var index c o => exact (affine_affine _ _ _ _ _).symm
  | const k => rfl

@[simp] theorem redirect_ofVar (f : Nat → Rep p) (x : Nat) :
    (ofVar x : Rep p).redirect f = f x :=
  affine_one_zero (f x)

end Rep

/-- What a node says about the value of its variable. -/
def Node.Holds {p : Nat} (w : Nat → Residue p) (x : Nat) : Node p → Prop
  | .root => True
  | .link parent coeff offset => w x = coeff * w parent + offset
  | .pinned value => w x = value

namespace Forest

variable {p : Nat}

/-- Every link is invertible and goes to an older variable. -/
def WellFormed [Modulus p] (forest : Forest p) : Prop :=
  ∀ (x parent : Nat) (coeff offset : Residue p),
    forest.nodes[x]? = some (.link parent coeff offset) → parent < x ∧ coeff ≠ 0

/-- The assignment satisfies every link and every pin. -/
def Holds (w : Nat → Residue p) (forest : Forest p) : Prop :=
  ∀ (x : Nat) (node : Node p), forest.nodes[x]? = some node → node.Holds w x

variable [Modulus p] {forest next : Forest p}

omit [Modulus p] in
theorem isRoot_iff {x : Nat} : forest.isRoot x = true ↔ forest.nodes[x]? = some .root := by
  unfold isRoot
  split <;> simp_all

theorem find_of_root {x : Nat} (h : forest.nodes[x]? = some .root) :
    forest.find x = some (.ofVar x) := by
  rw [find, h]

theorem find_of_pinned {x : Nat} {k : Residue p} (h : forest.nodes[x]? = some (.pinned k)) :
    forest.find x = some (.const k) := by
  rw [find, h]

theorem find_of_link (hForest : forest.WellFormed) {x parent : Nat} {coeff offset : Residue p}
    (h : forest.nodes[x]? = some (.link parent coeff offset)) :
    forest.find x = (forest.find parent).map (·.affine coeff offset) := by
  rw [find, h]
  simp [(hForest x parent coeff offset h).1]

theorem find_of_le {x : Nat} (h : forest.size ≤ x) : forest.find x = none := by
  rw [find, Array.getElem?_eq_none h]

/-- A search from a variable of the forest ends. -/
theorem exists_find (hForest : forest.WellFormed) {x : Nat} (hx : x < forest.size) :
    ∃ rep, forest.find x = some rep := by
  induction x using Nat.strong_induction_on with
  | _ x ih =>
      have hNode := Array.getElem?_eq_getElem hx
      cases hCase : forest.nodes[x] with
      | root => exact ⟨_, find_of_root (hNode.trans (congrArg some hCase))⟩
      | pinned k => exact ⟨_, find_of_pinned (hNode.trans (congrArg some hCase))⟩
      | link parent coeff offset =>
          have hLink := hNode.trans (congrArg some hCase)
          have hOlder := (hForest x parent coeff offset hLink).1
          obtain ⟨rep, hRep⟩ := ih parent hOlder (hOlder.trans hx)
          exact ⟨rep.affine coeff offset, by rw [find_of_link hForest hLink, hRep]; rfl⟩

theorem exists_find_iff (hForest : forest.WellFormed) (x : Nat) :
    (∃ rep, forest.find x = some rep) ↔ x < forest.size := by
  constructor
  · rintro ⟨rep, hFind⟩
    by_contra hOutside
    rw [find_of_le (Nat.le_of_not_lt hOutside)] at hFind
    cases hFind
  · exact exists_find hForest

/-- The cases of a search that succeeds. -/
theorem find_cases (hForest : forest.WellFormed) {x : Nat} {rep : Rep p}
    (hFind : forest.find x = some rep) :
    (forest.nodes[x]? = some .root ∧ rep = .ofVar x) ∨
    (∃ k, forest.nodes[x]? = some (.pinned k) ∧ rep = .const k) ∨
    (∃ parent coeff offset older, forest.nodes[x]? = some (.link parent coeff offset) ∧
      forest.find parent = some older ∧ rep = older.affine coeff offset) := by
  cases hNode : forest.nodes[x]? with
  | none =>
      rw [find, hNode] at hFind
      cases hFind
  | some node =>
      cases node with
      | root =>
          rw [find_of_root hNode] at hFind
          exact .inl ⟨rfl, (Option.some.inj hFind).symm⟩
      | pinned k =>
          rw [find_of_pinned hNode] at hFind
          exact .inr (.inl ⟨k, rfl, (Option.some.inj hFind).symm⟩)
      | link parent coeff offset =>
          rw [find_of_link hForest hNode] at hFind
          obtain ⟨older, hOlder, hRep⟩ := Option.map_eq_some_iff.mp hFind
          exact .inr (.inr ⟨parent, coeff, offset, older, rfl, hOlder, hRep.symm⟩)

/-- What a search returns follows from the links and pins. -/
theorem Holds.find_value {w : Nat → Residue p} (hHolds : forest.Holds w)
    (hForest : forest.WellFormed) {x : Nat} {rep : Rep p} (hFind : forest.find x = some rep) :
    w x = rep.value w := by
  induction x using Nat.strong_induction_on generalizing rep with
  | _ x ih =>
      rcases find_cases hForest hFind with
        ⟨_, rfl⟩ | ⟨k, hNode, rfl⟩ | ⟨parent, coeff, offset, older, hNode, hOlder, rfl⟩
      · simp
      · exact hHolds x _ hNode
      · have hLink : w x = coeff * w parent + offset := hHolds x _ hNode
        have hParent := ih parent (hForest x parent coeff offset hNode).1 hOlder
        rw [Rep.value_affine, ← hParent, hLink]

/-- The answers of all searches together say no more and no less than the links and pins. -/
theorem holds_iff_find (hForest : forest.WellFormed) (w : Nat → Residue p) :
    forest.Holds w ↔ ∀ x rep, forest.find x = some rep → w x = rep.value w := by
  constructor
  · intro hHolds x rep hFind
    exact hHolds.find_value hForest hFind
  · intro hAnswers x node hNode
    cases node with
    | root => trivial
    | pinned k => exact hAnswers x _ (find_of_pinned hNode)
    | link parent coeff offset =>
        have hOlder := (hForest x parent coeff offset hNode).1
        have hx : x < forest.size := (Array.getElem?_eq_some_iff.mp hNode).1
        obtain ⟨rep, hRep⟩ := exists_find hForest (hOlder.trans hx)
        have hChild := hAnswers x (rep.affine coeff offset)
          (by rw [find_of_link hForest hNode, hRep]; rfl)
        rw [Rep.value_affine, ← hAnswers parent rep hRep] at hChild
        exact hChild

/-- A representative is free, no younger than the variable it stands for, and reached through an
invertible relation. -/
theorem find_var [Fact p.Prime] (hForest : forest.WellFormed) {x r : Nat} {c o : Residue p}
    (hFind : forest.find x = some (.var r c o)) :
    forest.nodes[r]? = some .root ∧ r ≤ x ∧ c ≠ 0 := by
  induction x using Nat.strong_induction_on generalizing r c o with
  | _ x ih =>
      rcases find_cases hForest hFind with
        ⟨hNode, hRep⟩ | ⟨k, _, hRep⟩ | ⟨parent, coeff, offset, older, hNode, hOlder, hRep⟩
      · obtain ⟨rfl, rfl, rfl⟩ := Rep.var.inj hRep
        exact ⟨hNode, le_rfl, one_ne_zero⟩
      · cases hRep
      · obtain ⟨hLess, hCoeff⟩ := hForest x parent coeff offset hNode
        cases older with
        | const k => cases hRep
        | var r' c' o' =>
            obtain ⟨rfl, rfl, -⟩ := Rep.var.inj hRep
            obtain ⟨hRoot, hLe, hNonzero⟩ := ih parent hLess hOlder
            exact ⟨hRoot, hLe.trans hLess.le, mul_ne_zero hCoeff hNonzero⟩

/-- Let a variable state directly what it is worth. -/
def direct (forest : Forest p) (x : Nat) (rep : Rep p) : Forest p :=
  ⟨forest.nodes.setIfInBounds x (.ofRep rep)⟩

omit [Modulus p] in
theorem direct_size (x : Nat) (rep : Rep p) : (forest.direct x rep).size = forest.size := by
  simp [direct, size]

omit [Modulus p] in
theorem direct_self {x : Nat} (hx : x < forest.size) (rep : Rep p) :
    (forest.direct x rep).nodes[x]? = some (.ofRep rep) :=
  Array.getElem?_setIfInBounds_self_of_lt hx

omit [Modulus p] in
theorem direct_other {x y : Nat} (hne : x ≠ y) (rep : Rep p) :
    (forest.direct x rep).nodes[y]? = forest.nodes[y]? :=
  Array.getElem?_setIfInBounds_ne hne

omit [Modulus p] in
/-- The links after a variable was directed. -/
theorem direct_link {x y parent : Nat} {rep : Rep p} {coeff offset : Residue p}
    (h : (forest.direct x rep).nodes[y]? = some (.link parent coeff offset)) :
    y = x ∧ rep = .var parent coeff offset ∨
      forest.nodes[y]? = some (.link parent coeff offset) := by
  by_cases hxy : x = y
  · subst hxy
    have hx : x < forest.size := by
      rw [← direct_size x rep]
      exact (Array.getElem?_eq_some_iff.mp h).1
    rw [direct_self hx] at h
    cases rep with
    | const k => cases h
    | var r c o =>
        obtain ⟨rfl, rfl, rfl⟩ := Node.link.inj (Option.some.inj h)
        exact .inl ⟨rfl, rfl⟩
  · rw [direct_other hxy] at h
    exact .inr h

theorem direct_wellFormed (hForest : forest.WellFormed) {x : Nat} {rep : Rep p}
    (hOlder : ∀ r c o, rep = .var r c o → r < x ∧ c ≠ 0) : (forest.direct x rep).WellFormed := by
  intro y parent coeff offset hNode
  rcases direct_link hNode with ⟨rfl, hRep⟩ | hOld
  · exact hOlder parent coeff offset hRep
  · exact hForest y parent coeff offset hOld

/-- A search in the new forest, at the variable whose node was replaced. Searches that the old
answer leads to must not pass through that variable again. -/
theorem find_direct_self {x : Nat} (hx : x < forest.size) {rep : Rep p}
    (hForest : (forest.direct x rep).WellFormed)
    (hRoot : ∀ r c o, rep = .var r c o → (forest.direct x rep).find r = some (.ofVar r)) :
    (forest.direct x rep).find x = some rep := by
  have hNode := direct_self hx rep
  cases rep with
  | const k => exact find_of_pinned hNode
  | var r c o =>
      rw [find_of_link hForest hNode, hRoot r c o rfl]
      exact congrArg some (Rep.affine_ofVar r c o)

/-- Directing a free representative to an older free one, or to a constant, redirects exactly the
searches that ended at it. -/
theorem find_direct_root (hForest : forest.WellFormed) {x : Nat}
    (hFree : forest.nodes[x]? = some .root) {rep : Rep p}
    (hOlder : ∀ r c o, rep = .var r c o → r < x ∧ c ≠ 0 ∧ forest.nodes[r]? = some .root)
    (y : Nat) :
    (forest.direct x rep).find y =
      (forest.find y).map (Rep.redirect fun r => if r = x then rep else .ofVar r) := by
  have hNew : (forest.direct x rep).WellFormed :=
    direct_wellFormed hForest fun r c o h => ⟨(hOlder r c o h).1, (hOlder r c o h).2.1⟩
  have hx : x < forest.size := (Array.getElem?_eq_some_iff.mp hFree).1
  induction y using Nat.strong_induction_on with
  | _ y ih =>
      by_cases hxy : x = y
      · subst hxy
        rw [find_of_root hFree, Option.map_some, Rep.redirect_ofVar, if_pos rfl]
        refine find_direct_self hx hNew fun r c o h => ?_
        have hr := hOlder r c o h
        exact find_of_root ((direct_other hr.1.ne' rep).trans hr.2.2)
      · have hSame : (forest.direct x rep).nodes[y]? = forest.nodes[y]? := direct_other hxy rep
        cases hNode : forest.nodes[y]? with
        | none =>
            rw [hNode] at hSame
            rw [find, hSame, find, hNode]
            rfl
        | some node =>
            rw [hNode] at hSame
            cases node with
            | root =>
                rw [find_of_root hSame, find_of_root hNode, Option.map_some, Rep.redirect_ofVar,
                  if_neg (Ne.symm hxy)]
            | pinned k =>
                rw [find_of_pinned hSame, find_of_pinned hNode]
                rfl
            | link parent coeff offset =>
                rw [find_of_link hNew hSame, find_of_link hForest hNode,
                  ih parent (hForest y parent coeff offset hNode).1, Option.map_map,
                  Option.map_map]
                congr 1
                funext older
                exact (Rep.redirect_affine _ older coeff offset).symm

omit [Modulus p] in
/-- Directing a free representative adds one equation. -/
theorem holds_direct_root {x : Nat} (hFree : forest.nodes[x]? = some .root) (rep : Rep p)
    (w : Nat → Residue p) :
    (forest.direct x rep).Holds w ↔ forest.Holds w ∧ w x = rep.value w := by
  have hx : x < forest.size := (Array.getElem?_eq_some_iff.mp hFree).1
  have hEquation : (Node.ofRep rep).Holds w x ↔ w x = rep.value w := by cases rep <;> rfl
  constructor
  · intro hHolds
    refine ⟨fun y node hNode => ?_, hEquation.mp (hHolds x _ (direct_self hx rep))⟩
    by_cases hxy : x = y
    · subst hxy
      rw [hFree] at hNode
      cases hNode
      trivial
    · exact hHolds y node ((direct_other hxy rep).trans hNode)
  · rintro ⟨hHolds, hValue⟩ y node hNode
    by_cases hxy : x = y
    · subst hxy
      rw [direct_self hx] at hNode
      cases hNode
      exact hEquation.mpr hValue
    · exact hHolds y node ((direct_other hxy rep).symm.trans hNode)

/-- Two forests over the same variables that answer every search alike. -/
structure Agrees (before after : Forest p) : Prop where
  wellFormed : after.WellFormed
  size : after.size = before.size
  find : ∀ x, after.find x = before.find x
  root : ∀ x : Nat, after.nodes[x]? = some .root ↔ before.nodes[x]? = some .root

theorem Agrees.refl (hForest : forest.WellFormed) : forest.Agrees forest :=
  ⟨hForest, rfl, fun _ => rfl, fun _ => Iff.rfl⟩

theorem Agrees.trans {first second third : Forest p} (left : first.Agrees second)
    (right : second.Agrees third) : first.Agrees third :=
  ⟨right.wellFormed, right.size.trans left.size, fun x => (right.find x).trans (left.find x),
    fun x => (right.root x).trans (left.root x)⟩

/-- A linked or pinned variable may state directly what a search for it returns. -/
theorem direct_agrees [Fact p.Prime] (hForest : forest.WellFormed) {x : Nat} {rep : Rep p}
    (hBound : forest.nodes[x]? ≠ some .root) (hFind : forest.find x = some rep) :
    forest.Agrees (forest.direct x rep) := by
  have hx : x < forest.size := by
    by_contra hLe
    rw [find_of_le (Nat.le_of_not_lt hLe)] at hFind
    cases hFind
  have hOlder : ∀ r c o, rep = .var r c o → r < x ∧ c ≠ 0 := by
    rintro r c o rfl
    obtain ⟨hRoot, hLe, hNonzero⟩ := find_var hForest hFind
    refine ⟨lt_of_le_of_ne hLe fun h => hBound ?_, hNonzero⟩
    rw [← h]
    exact hRoot
  have hNew := direct_wellFormed hForest hOlder
  refine ⟨hNew, direct_size x rep, fun y => ?_, fun y => ?_⟩
  · induction y using Nat.strong_induction_on with
    | _ y ih =>
        by_cases hxy : x = y
        · subst hxy
          rw [hFind]
          refine find_direct_self hx hNew ?_
          rintro r c o rfl
          rw [ih r (hOlder r c o rfl).1]
          exact find_of_root (find_var hForest hFind).1
        · have hSame : (forest.direct x rep).nodes[y]? = forest.nodes[y]? := direct_other hxy rep
          cases hNode : forest.nodes[y]? with
          | none =>
              rw [hNode] at hSame
              rw [find, hSame, find, hNode]
          | some node =>
              rw [hNode] at hSame
              cases node with
              | root => rw [find_of_root hSame, find_of_root hNode]
              | pinned k => rw [find_of_pinned hSame, find_of_pinned hNode]
              | link parent coeff offset =>
                  rw [find_of_link hNew hSame, find_of_link hForest hNode,
                    ih parent (hForest y parent coeff offset hNode).1]
  · by_cases hxy : x = y
    · subst hxy
      rw [direct_self hx]
      cases rep <;> simp [Node.ofRep, hBound]
    · rw [direct_other hxy]

/-- Shortening the path of a variable changes no answer. -/
theorem compress_agrees [Fact p.Prime] (hForest : forest.WellFormed) (x : Nat) :
    forest.Agrees (forest.compress x) := by
  induction x using Nat.strong_induction_on with
  | _ x ih =>
      rw [compress]
      split
      · rename_i parent coeff offset hNode
        have hLess := (hForest x parent coeff offset hNode).1
        have hx : x < forest.size := (Array.getElem?_eq_some_iff.mp hNode).1
        have hShorter := ih parent hLess
        obtain ⟨rep, hRep⟩ := exists_find hForest (hLess.trans hx)
        have hParent : (forest.compress parent).find parent = some rep :=
          (hShorter.find parent).trans hRep
        simp only [dif_pos hLess, hParent]
        refine hShorter.trans (direct_agrees hShorter.wellFormed ?_ ?_)
        · rw [Ne, hShorter.root x, hNode]
          simp
        · rw [hShorter.find x, find_of_link hForest hNode, hRep]
          rfl
      · exact Agrees.refl hForest

omit [Modulus p] in
theorem push_node {x : Nat} (hx : x < forest.size) : forest.push.nodes[x]? = forest.nodes[x]? :=
  Array.getElem?_push_lt hx |>.trans (Array.getElem?_eq_getElem hx).symm

omit [Modulus p] in
theorem push_new : forest.push.nodes[forest.size]? = some .root :=
  Array.getElem?_push_size

omit [Modulus p] in
/-- A new variable has no link. -/
theorem push_link {x parent : Nat} {coeff offset : Residue p}
    (h : forest.push.nodes[x]? = some (.link parent coeff offset)) :
    forest.nodes[x]? = some (.link parent coeff offset) := by
  by_cases hx : x < forest.size
  · exact (push_node hx).symm.trans h
  · have hBound : x < forest.nodes.size + 1 := by
      simpa [push] using (Array.getElem?_eq_some_iff.mp h).1
    have hNew : x = forest.size := Nat.eq_of_lt_succ_of_not_lt hBound hx
    rw [hNew, push_new] at h
    cases h

theorem push_wellFormed (hForest : forest.WellFormed) : forest.push.WellFormed :=
  fun x parent coeff offset hNode => hForest x parent coeff offset (push_link hNode)

/-- A new variable does not change the answers for older ones. -/
theorem find_push (hForest : forest.WellFormed) {x : Nat} (hx : x < forest.size) :
    forest.push.find x = forest.find x := by
  induction x using Nat.strong_induction_on with
  | _ x ih =>
      have hSame := push_node hx
      cases hNode : forest.nodes[x] with
      | root =>
          have hOld := (Array.getElem?_eq_getElem hx).trans (congrArg some hNode)
          rw [find_of_root (hSame.trans hOld), find_of_root hOld]
      | pinned k =>
          have hOld := (Array.getElem?_eq_getElem hx).trans (congrArg some hNode)
          rw [find_of_pinned (hSame.trans hOld), find_of_pinned hOld]
      | link parent coeff offset =>
          have hOld := (Array.getElem?_eq_getElem hx).trans (congrArg some hNode)
          have hLess := (hForest x parent coeff offset hOld).1
          rw [find_of_link (push_wellFormed hForest) (hSame.trans hOld), find_of_link hForest hOld,
            ih parent hLess (hLess.trans hx)]

/-- Looking up a variable after one more has been made. -/
theorem find_push_eq (hForest : forest.WellFormed) (x : Nat) :
    forest.push.find x = if x = forest.size then some (.ofVar x) else forest.find x := by
  split_ifs with hNew
  · rw [hNew]
    exact find_of_root push_new
  · by_cases hOld : x < forest.size
    · exact find_push hForest hOld
    · have hBeyond : forest.push.size ≤ x := by
        simp only [size, push, Array.size_push] at hNew hOld ⊢
        omega
      rw [find_of_le hBeyond, find_of_le (Nat.le_of_not_lt hOld)]

/-- A link that is accepted directs its child. -/
theorem link?_eq_some {child parent : Nat} {coeff offset : Residue p}
    (h : forest.link? child parent coeff offset = some next) :
    next = forest.direct child (.var parent coeff offset) ∧ parent < child ∧ coeff ≠ 0 ∧
      forest.nodes[child]? = some .root ∧ forest.nodes[parent]? = some .root := by
  rw [link?] at h
  split_ifs at h with hRules
  obtain ⟨hOrder, hChild, hParent, hCoeff⟩ := hRules
  exact ⟨(Option.some.inj h).symm, hOrder, hCoeff, isRoot_iff.mp hChild, isRoot_iff.mp hParent⟩

omit [Modulus p] in
/-- A pin that is accepted directs its variable. -/
theorem pin?_eq_some {root : Nat} {value : Residue p} (h : forest.pin? root value = some next) :
    next = forest.direct root (.const value) ∧ forest.nodes[root]? = some .root := by
  rw [pin?] at h
  split_ifs at h with hRoot
  exact ⟨(Option.some.inj h).symm, isRoot_iff.mp hRoot⟩

end Forest

end ArithCircuit
