import ArithCircuit.Proofs.PathSearch
import Mathlib.Logic.Relation
import Mathlib.Order.Bounds.Basic

/-! Classes of variables over whole histories. A forest that calls have reached says what the
equations say that were recorded on the way, no matter which paths have been shortened in between.
Its classes are the components of the recorded links, a class is pinned when one of its variables
is, and otherwise represented by its oldest variable. -/
namespace ArithCircuit

/-- The variable of a representative; a constant has none. -/
def Rep.root? {p : Nat} : Rep p → Option Nat
  | .var index _ _ => some index
  | .const _ => none

theorem Rep.root?_affine {p : Nat} (rep : Rep p) (coeff offset : Residue p) :
    (rep.affine coeff offset).root? = rep.root? := by
  cases rep <;> rfl

namespace Forest

/-- The equation that a link or a pin records: what a variable is worth. -/
structure Equation (p : Nat) where
  left : Nat
  right : Rep p

/-- The assignment satisfies the equation. -/
def Equation.Holds {p : Nat} (w : Nat → Residue p) (equation : Equation p) : Prop :=
  w equation.left = equation.right.value w

/-- One of the links was recorded between the two variables. -/
def Linked {p : Nat} (equations : List (Equation p)) (child parent : Nat) : Prop :=
  ∃ coeff offset, ⟨child, .var parent coeff offset⟩ ∈ equations

/-- A chain of links, followed in either direction, joins the two variables. -/
def Connected {p : Nat} (equations : List (Equation p)) : Nat → Nat → Prop :=
  Relation.EqvGen (Linked equations)

variable {p : Nat} [Modulus p]

/-- What calls make of an empty forest, with the equations that they record. A link or a pin is
made only within the rules. -/
inductive Reached : List (Equation p) → Forest p → Prop where
  | empty : Reached [] empty
  | push {equations : List (Equation p)} {forest : Forest p} (prior : Reached equations forest) :
      Reached equations forest.push
  | find {equations : List (Equation p)} {forest : Forest p} (prior : Reached equations forest)
      (x : Nat) : Reached equations (forest.compress x)
  | link {equations : List (Equation p)} {forest next : Forest p} {child parent : Nat}
      {coeff offset : Residue p} (prior : Reached equations forest)
      (hLink : forest.link? child parent coeff offset = some next) :
      Reached (⟨child, .var parent coeff offset⟩ :: equations) next
  | pin {equations : List (Equation p)} {forest next : Forest p} {root : Nat} {value : Residue p}
      (prior : Reached equations forest) (hPin : forest.pin? root value = some next) :
      Reached (⟨root, .const value⟩ :: equations) next

variable {equations : List (Equation p)} {forest next : Forest p}

omit [Modulus p] in
theorem Connected.weaken {equation : Equation p} {x y : Nat} (h : Connected equations x y) :
    Connected (equation :: equations) x y :=
  Relation.EqvGen.mono
    (fun _ _ ⟨coeff, offset, hMem⟩ => ⟨coeff, offset, List.mem_cons_of_mem _ hMem⟩) x y h

/-- What a search finds after a free representative was directed: what it found before, or what the
representative is worth now. -/
theorem find_direct_cases (hForest : forest.WellFormed) {x y : Nat} {rep found : Rep p}
    (hFree : forest.nodes[x]? = some .root)
    (hOlder : ∀ r c o, rep = .var r c o → r < x ∧ c ≠ 0 ∧ forest.nodes[r]? = some .root)
    (h : (forest.direct x rep).find y = some found) :
    forest.find y = some found ∨
      ∃ c o, forest.find y = some (.var x c o) ∧ rep.affine c o = found := by
  rw [find_direct_root hForest hFree hOlder] at h
  obtain ⟨old, hOld, rfl⟩ := Option.map_eq_some_iff.mp h
  cases old with
  | const k => exact .inl hOld
  | var r c o =>
      rw [Rep.redirect]
      split_ifs with hSame
      · exact .inr ⟨c, o, hSame ▸ hOld, rfl⟩
      · rw [Rep.affine_ofVar]
        exact .inl hOld

/-- The forest says what the equations say. A search that ends at a variable ends in the same
component, and one that ends at a constant has a pinned variable in its component. -/
structure Reflects (equations : List (Equation p)) (forest : Forest p) : Prop where
  wellFormed : forest.WellFormed
  holds_iff : ∀ w, forest.Holds w ↔ ∀ equation ∈ equations, equation.Holds w
  linked : ∀ child parent coeff offset, ⟨child, .var parent coeff offset⟩ ∈ equations →
    ∃ rep, forest.find parent = some rep ∧ forest.find child = some (rep.affine coeff offset)
  pinned : ∀ root value, ⟨root, .const value⟩ ∈ equations →
    forest.find root = some (.const value)
  joined : ∀ x r c o, forest.find x = some (.var r c o) → Connected equations x r
  fixed : ∀ x k, forest.find x = some (.const k) →
    ∃ root value, ⟨root, .const value⟩ ∈ equations ∧ Connected equations x root

namespace Reflects

theorem empty : Reflects [] (empty : Forest p) where
  wellFormed x parent coeff offset hNode := by simp [Forest.empty] at hNode
  holds_iff w := by simp [Holds, Forest.empty]
  linked := by simp
  pinned := by simp
  joined x r c o hFind := by
    rw [find_of_le (Nat.zero_le x)] at hFind
    cases hFind
  fixed x k hFind := by
    rw [find_of_le (Nat.zero_le x)] at hFind
    cases hFind

/-- Shorter paths say the same. -/
theorem agrees (h : Reflects equations forest) (hAgrees : forest.Agrees next) :
    Reflects equations next where
  wellFormed := hAgrees.wellFormed
  holds_iff w := by
    rw [← h.holds_iff w, holds_iff_find hAgrees.wellFormed, holds_iff_find h.wellFormed]
    simp only [hAgrees.find]
  linked child parent coeff offset hMem := by
    rw [hAgrees.find, hAgrees.find]
    exact h.linked child parent coeff offset hMem
  pinned root value hMem := (hAgrees.find root).trans (h.pinned root value hMem)
  joined x r c o hFind := h.joined x r c o ((hAgrees.find x).symm.trans hFind)
  fixed x k hFind := h.fixed x k ((hAgrees.find x).symm.trans hFind)

/-- A new variable is in no equation, and alone in its component. -/
theorem push (h : Reflects equations forest) : Reflects equations forest.push := by
  have hOld {x : Nat} {rep : Rep p} (hFind : forest.find x = some rep) :
      forest.push.find x = some rep := by
    have hLess := (exists_find_iff h.wellFormed x).mp ⟨rep, hFind⟩
    rw [find_push_eq h.wellFormed, if_neg hLess.ne, hFind]
  have hCases {x : Nat} {rep : Rep p} (hFind : forest.push.find x = some rep) :
      rep = .ofVar x ∨ forest.find x = some rep := by
    rw [find_push_eq h.wellFormed] at hFind
    split_ifs at hFind
    · exact .inl (Option.some.inj hFind).symm
    · exact .inr hFind
  have hForest := push_wellFormed h.wellFormed
  refine
    { wellFormed := hForest
      holds_iff := fun w => ?_
      linked := fun child parent coeff offset hMem => ?_
      pinned := fun root value hMem => hOld (h.pinned root value hMem)
      joined := fun x r c o hFind => ?_
      fixed := fun x k hFind => ?_ }
  · rw [← h.holds_iff w, holds_iff_find hForest, holds_iff_find h.wellFormed]
    constructor
    · exact fun hAnswers x rep hFind => hAnswers x rep (hOld hFind)
    · intro hAnswers x rep hFind
      rcases hCases hFind with rfl | hFind
      · exact (Rep.value_ofVar w x).symm
      · exact hAnswers x rep hFind
  · obtain ⟨rep, hParent, hChild⟩ := h.linked child parent coeff offset hMem
    exact ⟨rep, hOld hParent, hOld hChild⟩
  · rcases hCases hFind with hSelf | hFind
    · obtain ⟨rfl, -, -⟩ := Rep.var.inj hSelf
      exact .refl _
    · exact h.joined x r c o hFind
  · rcases hCases hFind with hSelf | hFind
    · cases hSelf
    · exact h.fixed x k hFind

/-- Directing a free representative adds the equation that it states, and joins the component of
the variable to which it is directed. -/
theorem direct (h : Reflects equations forest) {x : Nat} {rep : Rep p}
    (hFree : forest.nodes[x]? = some .root)
    (hOlder : ∀ r c o, rep = .var r c o → r < x ∧ c ≠ 0 ∧ forest.nodes[r]? = some .root) :
    Reflects (⟨x, rep⟩ :: equations) (forest.direct x rep) := by
  have hForest : (forest.direct x rep).WellFormed :=
    direct_wellFormed h.wellFormed fun r c o hRep =>
      ⟨(hOlder r c o hRep).1, (hOlder r c o hRep).2.1⟩
  have hFind := find_direct_root h.wellFormed hFree hOlder
  have hSelf : (forest.direct x rep).find x = some rep := by
    rw [hFind, find_of_root hFree, Option.map_some, Rep.redirect_ofVar, if_pos rfl]
  refine
    { wellFormed := hForest
      holds_iff := fun w => ?_
      linked := fun child parent coeff offset hMem => ?_
      pinned := fun root value hMem => ?_
      joined := fun y r c o hVar => ?_
      fixed := fun y k hConst => ?_ }
  · rw [holds_direct_root hFree, h.holds_iff, List.forall_mem_cons, and_comm]
    rfl
  · rcases List.mem_cons.mp hMem with hNew | hOld
    · obtain ⟨rfl, rfl⟩ := Equation.mk.inj hNew
      obtain ⟨hLess, -, hRoot⟩ := hOlder parent coeff offset rfl
      refine ⟨.ofVar parent, ?_, ?_⟩
      · rw [hFind, find_of_root hRoot, Option.map_some, Rep.redirect_ofVar, if_neg hLess.ne]
      · rw [hSelf, Rep.affine_ofVar]
    · obtain ⟨older, hParent, hChild⟩ := h.linked child parent coeff offset hOld
      refine ⟨older.redirect fun r => if r = x then rep else .ofVar r, ?_, ?_⟩
      · rw [hFind, hParent, Option.map_some]
      · rw [hFind, hChild, Option.map_some, Rep.redirect_affine]
  · rcases List.mem_cons.mp hMem with hNew | hOld
    · obtain ⟨rfl, rfl⟩ := Equation.mk.inj hNew
      exact hSelf
    · rw [hFind, h.pinned root value hOld]
      rfl
  · rcases find_direct_cases h.wellFormed hFree hOlder hVar with hOld | ⟨d, e, hOld, hNew⟩
    · exact (h.joined y r c o hOld).weaken
    · cases rep with
      | const k => cases hNew
      | var parent coeff offset =>
          -- the search went through `x` and the new link
          obtain ⟨rfl, -, -⟩ := Rep.var.inj hNew
          exact (h.joined y x d e hOld).weaken.trans _ _ _
            (.rel _ _ ⟨coeff, offset, List.mem_cons_self⟩)
  · rcases find_direct_cases h.wellFormed hFree hOlder hConst with hOld | ⟨d, e, hOld, hNew⟩
    · obtain ⟨root, value, hMem, hJoined⟩ := h.fixed y k hOld
      exact ⟨root, value, List.mem_cons_of_mem _ hMem, hJoined.weaken⟩
    · cases rep with
      | const value => exact ⟨x, value, List.mem_cons_self, (h.joined y x d e hOld).weaken⟩
      | var parent coeff offset => cases hNew

/-- All variables of a component are represented alike. -/
theorem root?_eq (h : Reflects equations forest) {x y : Nat}
    (hConnected : Connected equations x y) :
    (forest.find x).map Rep.root? = (forest.find y).map Rep.root? := by
  induction hConnected with
  | rel child parent hLink =>
      obtain ⟨coeff, offset, hMem⟩ := hLink
      obtain ⟨rep, hParent, hChild⟩ := h.linked child parent coeff offset hMem
      rw [hParent, hChild, Option.map_some, Option.map_some, Rep.root?_affine]
  | refl x => rfl
  | symm x y _ ih => exact ih.symm
  | trans x y z _ _ ihLeft ihRight => exact ihLeft.trans ihRight

theorem find_var_of_connected (h : Reflects equations forest) {x y r : Nat} {c o : Residue p}
    (hConnected : Connected equations x y) (hFind : forest.find x = some (.var r c o)) :
    ∃ c' o', forest.find y = some (.var r c' o') := by
  have hSame := h.root?_eq hConnected
  rw [hFind] at hSame
  obtain ⟨rep, hRep, hRoot⟩ := Option.map_eq_some_iff.mp hSame.symm
  cases rep with
  | const k => cases hRoot
  | var s c' o' =>
      obtain rfl : s = r := Option.some.inj hRoot
      exact ⟨c', o', hRep⟩

/-- A class is pinned when a variable of its component is. -/
theorem find_const_iff (h : Reflects equations forest) (x : Nat) :
    (∃ k, forest.find x = some (.const k)) ↔
      ∃ root value, ⟨root, .const value⟩ ∈ equations ∧ Connected equations x root := by
  constructor
  · rintro ⟨k, hFind⟩
    exact h.fixed x k hFind
  · rintro ⟨root, value, hMem, hConnected⟩
    have hSame := h.root?_eq hConnected
    rw [h.pinned root value hMem] at hSame
    obtain ⟨rep, hRep, hRoot⟩ := Option.map_eq_some_iff.mp hSame
    cases rep with
    | const k => exact ⟨k, hRep⟩
    | var r c o => cases hRoot

/-- In a component that is not pinned, the representative is the oldest variable. -/
theorem isLeast_root [Fact p.Prime] (h : Reflects equations forest) {x r : Nat}
    {c o : Residue p} (hFind : forest.find x = some (.var r c o)) :
    IsLeast {y | Connected equations x y} r := by
  refine ⟨h.joined x r c o hFind, fun y hConnected => ?_⟩
  obtain ⟨c', o', hOther⟩ := h.find_var_of_connected hConnected hFind
  exact (find_var h.wellFormed hOther).2.1

theorem find_var_iff (h : Reflects equations forest) {x r : Nat} {c o : Residue p}
    (hFind : forest.find x = some (.var r c o)) (y : Nat) :
    (∃ c' o', forest.find y = some (.var r c' o')) ↔ Connected equations x y := by
  constructor
  · rintro ⟨c', o', hOther⟩
    exact (h.joined x r c o hFind).trans _ _ _ ((h.joined y r c' o' hOther).symm _ _)
  · intro hConnected
    exact h.find_var_of_connected hConnected hFind

end Reflects

theorem Reached.reflects [Fact p.Prime] (h : Reached equations forest) :
    Reflects equations forest := by
  induction h with
  | empty => exact .empty
  | push _ ih => exact ih.push
  | find _ x ih => exact ih.agrees (compress_agrees ih.wellFormed x)
  | link _ hLink ih =>
      obtain ⟨rfl, hOrder, hCoeff, hChild, hParent⟩ := link?_eq_some hLink
      refine ih.direct hChild ?_
      rintro r c o ⟨⟩
      exact ⟨hOrder, hCoeff, hParent⟩
  | pin _ hPin ih =>
      obtain ⟨rfl, hRoot⟩ := pin?_eq_some hPin
      refine ih.direct hRoot ?_
      rintro r c o ⟨⟩

/-- Forests that answer alike accept the same links and pins. -/
theorem Agrees.accepts (h : forest.Agrees next) (x : Nat) :
    next.isRoot x = forest.isRoot x ∧
      (∀ parent coeff offset, (next.link? x parent coeff offset).isSome =
        (forest.link? x parent coeff offset).isSome) ∧
      ∀ value, (next.pin? x value).isSome = (forest.pin? x value).isSome := by
  have hRoot (y : Nat) : next.isRoot y = forest.isRoot y := by
    rw [Bool.eq_iff_iff, isRoot_iff, isRoot_iff, h.root]
  refine ⟨hRoot x, fun parent coeff offset => ?_, fun value => ?_⟩
  · simp only [link?, hRoot]
    split_ifs <;> rfl
  · simp only [pin?, hRoot]
    split_ifs <;> rfl

/-- The classes are well founded and faithful. After any calls within the rules, every link goes to
an older variable and is invertible, so that a search for any variable ends and answers as `find`
does. The answers together say exactly what the recorded equations say. A class is pinned iff one
of its variables was, and otherwise its representative is the oldest variable that links join to it
and tells its variables from all others. A search changes no later answer: of no search, and of no
question whether a variable is a root or may be linked or pinned. -/
theorem Reached.faithful [Fact p.Prime] (h : Reached equations forest) :
    (∀ x parent coeff offset, forest.nodes[x]? = some (Node.link parent coeff offset) →
      parent < x ∧ coeff ≠ 0) ∧
    (∀ x, (∃ rep, forest.find x = some rep) ↔ x < forest.size) ∧
    (∀ w, (∀ equation ∈ equations, equation.Holds w) ↔
      ∀ x rep, forest.find x = some rep → w x = rep.value w) ∧
    (∀ x, (∃ k, forest.find x = some (.const k)) ↔
      ∃ root value, ⟨root, .const value⟩ ∈ equations ∧ Connected equations x root) ∧
    (∀ x r c o, forest.find x = some (.var r c o) →
      IsLeast {y | Connected equations x y} r ∧
      ∀ y, (∃ c' o', forest.find y = some (.var r c' o')) ↔ Connected equations x y) ∧
    ∀ x, ∃ next, forest.search x = .ok (forest.find x, next) ∧ ∀ y,
      next.find y = forest.find y ∧ next.isRoot y = forest.isRoot y ∧
      (∀ parent coeff offset, (next.link? y parent coeff offset).isSome =
        (forest.link? y parent coeff offset).isSome) ∧
      ∀ value, (next.pin? y value).isSome = (forest.pin? y value).isSome := by
  have hReflects := h.reflects
  have hForest := hReflects.wellFormed
  refine ⟨hForest, exists_find_iff hForest, fun w => ?_, hReflects.find_const_iff,
    fun x r c o hFind => ⟨hReflects.isLeast_root hFind, hReflects.find_var_iff hFind⟩,
    fun x => ⟨forest.compress x, search_eq hForest x, fun y => ?_⟩⟩
  · rw [← hReflects.holds_iff, holds_iff_find hForest]
  · have hAgrees := compress_agrees hForest x
    exact ⟨hAgrees.find y, hAgrees.accepts y⟩

/-- Two links of which the second moves the end of the first, a search that shortens the path over
both, and a pin at the end of a third link. -/
theorem Reached.faithful_interleaved :
    let equations : List (Equation 7) :=
      [⟨3, .const (.ofNat 7 6)⟩, ⟨4, .var 3 1 0⟩, ⟨1, .var 0 (.ofNat 7 2) (.ofNat 7 5)⟩,
        ⟨2, .var 1 (.ofNat 7 3) 1⟩]
    ∃ forest, Reached equations forest ∧
      forest.find 2 = some (.var 0 (.ofNat 7 6) (.ofNat 7 2)) ∧
      forest.find 4 = some (.const (.ofNat 7 6)) ∧
      IsLeast {y | Connected equations 2 y} 0 ∧ ¬ Connected equations 2 3 := by
  intro equations
  have : Fact (Nat.Prime 7) := ⟨by decide⟩
  have hVars : Reached [] (Forest.empty.push.push.push.push.push : Forest 7) :=
    .push (.push (.push (.push (.push .empty))))
  have hFirst : Reached (⟨2, .var 1 (.ofNat 7 3) 1⟩ :: _) _ :=
    hVars.link (if_pos (by decide +kernel))
  have hSecond : Reached (⟨1, .var 0 (.ofNat 7 2) (.ofNat 7 5)⟩ :: _) _ :=
    hFirst.link (if_pos (by decide +kernel))
  have hThird : Reached (⟨4, .var 3 1 0⟩ :: _) _ :=
    (hSecond.find 2).link (if_pos (by decide +kernel))
  have hLast : Reached equations _ := hThird.pin (if_pos (by decide +kernel))
  obtain ⟨-, -, -, hPinned, hClasses, -⟩ := hLast.faithful
  obtain ⟨hLeast, hClass⟩ := hClasses 2 0 (.ofNat 7 6) (.ofNat 7 2) (by decide +kernel)
  refine ⟨_, hLast, by decide +kernel, by decide +kernel, hLeast, fun hConnected => ?_⟩
  obtain ⟨c, o, hVar⟩ := (hClass 3).mpr hConnected
  obtain ⟨k, hConst⟩ := (hPinned 3).mpr ⟨3, _, List.mem_cons_self, .refl 3⟩
  cases hVar.symm.trans hConst

end Forest

end ArithCircuit
