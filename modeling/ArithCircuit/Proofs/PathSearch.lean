import ArithCircuit.Proofs.VariableTable

/-! Searches in two passes. A search follows the links from a variable until it comes to a
representative or a constant, and then goes back over the variables on its way and lets each of them
state directly what it is worth. Written out with every step that could go wrong, such a search
ends, stays inside the forest, and meets on its way back only the links that it met before. Its
answer and the shorter paths are those of `find` and `compress`. An equation that is solved with the
help of such searches is never divided by zero. -/
namespace ArithCircuit.Forest

variable {p : Nat} [Modulus p]

/-- Follow at most as many links as given. The variables on the way are put in front of a path. -/
def walk (forest : Forest p) : Nat → Nat → List Nat → Except Stop (Rep p × List Nat)
  | 0, _, _ => .error .abort
  | links + 1, x, path =>
    match forest.nodes[x]? with
    | none => .error .abort
    | some .root => .ok (.ofVar x, path)
    | some (.pinned value) => .ok (.const value, path)
    | some (.link parent _ _) => forest.walk links parent (x :: path)

/-- Go back over a path from what its first variable is linked to. -/
def retrace : Forest p → Rep p → List Nat → Except Stop (Rep p × Forest p)
  | forest, rep, [] => .ok (rep, forest)
  | forest, rep, x :: path =>
    match forest.nodes[x]? with
    | some (.link _ coeff offset) =>
      retrace (forest.direct x (rep.affine coeff offset)) (rep.affine coeff offset) path
    | _ => .error .abort

/-- Search for a variable; nothing is found for an index that has not been made. -/
def search (forest : Forest p) (x : Nat) : Except Stop (Option (Rep p) × Forest p) := do
  if forest.size ≤ x then return (none, forest)
  let (root, path) ← forest.walk forest.size x []
  let (rep, shorter) ← forest.retrace root path
  return (some rep, shorter)

/-- Search for variables one after the other. -/
def searchAll : Forest p → List Nat → Except Stop (List (Option (Rep p)) × Forest p)
  | forest, [] => return ([], forest)
  | forest, x :: rest => do
    let (found, shorter) ← forest.search x
    let (others, shortest) ← shorter.searchAll rest
    return (found :: others, shortest)

variable [Fact p.Prime] {forest : Forest p}

theorem compress_of_link (hForest : forest.WellFormed) {x parent : Nat} {coeff offset : Residue p}
    {rep : Rep p} (hNode : forest.nodes[x]? = some (.link parent coeff offset))
    (hRep : forest.find parent = some rep) :
    forest.compress x = (forest.compress parent).direct x (rep.affine coeff offset) := by
  have hLess := (hForest x parent coeff offset hNode).1
  have hParent : (forest.compress parent).find parent = some rep :=
    ((compress_agrees hForest parent).find parent).trans hRep
  rw [compress, hNode]
  simp only [dif_pos hLess, hParent]
  rfl

omit [Fact p.Prime] in
theorem compress_of_not_link {x : Nat}
    (hNode : ∀ parent coeff offset, forest.nodes[x]? ≠ some (.link parent coeff offset)) :
    forest.compress x = forest := by
  rw [compress]
  split
  · exact absurd ‹_› (hNode _ _ _)
  · rfl

/-- Shortening the path of a variable leaves younger variables alone. -/
theorem compress_younger (hForest : forest.WellFormed) {x y : Nat} (hLess : x < y) :
    (forest.compress x).nodes[y]? = forest.nodes[y]? := by
  induction x using Nat.strong_induction_on with
  | _ x ih =>
      by_cases hLink : ∃ parent coeff offset, forest.nodes[x]? = some (.link parent coeff offset)
      · obtain ⟨parent, coeff, offset, hNode⟩ := hLink
        have hOlder := (hForest x parent coeff offset hNode).1
        have hx : x < forest.size := (Array.getElem?_eq_some_iff.mp hNode).1
        obtain ⟨rep, hRep⟩ := exists_find hForest (hOlder.trans hx)
        rw [compress_of_link hForest hNode hRep, direct_other hLess.ne]
        exact ih parent hOlder (hOlder.trans hLess)
      · rw [compress_of_not_link fun parent coeff offset hNode =>
          hLink ⟨parent, coeff, offset, hNode⟩]

/-- The way from a variable to its representative and back. Links go to older variables, so there
are at most as many of them as there are older variables, and while the path of the older ones is
shortened the link of the variable itself stays in place. -/
theorem walk_retrace (hForest : forest.WellFormed) {x links : Nat} (hx : x < forest.size)
    (hLinks : x < links) (path : List Nat) :
    ∃ root rep visited, forest.walk links x path = .ok (root, visited ++ path) ∧
      forest.find x = some rep ∧ ∀ rest,
        forest.retrace root (visited ++ rest) = (forest.compress x).retrace rep rest := by
  induction x using Nat.strong_induction_on generalizing links path with
  | _ x ih =>
      obtain ⟨links, rfl⟩ := Nat.exists_eq_add_one_of_ne_zero (Nat.ne_zero_of_lt hLinks)
      have hIn := Array.getElem?_eq_getElem hx
      cases hNode : forest.nodes[x] with
      | root =>
          rw [hNode] at hIn
          refine ⟨.ofVar x, .ofVar x, [], by simp only [walk, hIn]; rfl, find_of_root hIn, ?_⟩
          rw [compress_of_not_link (by simp [hIn])]
          exact fun _ => rfl
      | pinned value =>
          rw [hNode] at hIn
          refine ⟨.const value, .const value, [], by simp only [walk, hIn]; rfl,
            find_of_pinned hIn, ?_⟩
          rw [compress_of_not_link (by simp [hIn])]
          exact fun _ => rfl
      | link parent coeff offset =>
          rw [hNode] at hIn
          have hOlder := (hForest x parent coeff offset hIn).1
          have hFewer : parent < links := by omega
          obtain ⟨root, rep, visited, hWalk, hFind, hRetrace⟩ :=
            ih parent hOlder (hOlder.trans hx) hFewer (x :: path)
          refine ⟨root, rep.affine coeff offset, visited ++ [x], ?_, ?_, fun rest => ?_⟩
          · simp only [walk, hIn, hWalk, List.append_assoc, List.cons_append, List.nil_append]
          · rw [find_of_link hForest hIn, hFind]
            rfl
          · have hStill := (compress_younger hForest hOlder).trans hIn
            rw [List.append_assoc, hRetrace, List.cons_append, List.nil_append,
              compress_of_link hForest hIn hFind]
            simp only [retrace, hStill]

/-- A search goes well and gives the answer of `find`, with the paths of `compress`. -/
theorem search_eq (hForest : forest.WellFormed) (x : Nat) :
    forest.search x = .ok (forest.find x, forest.compress x) := by
  rw [search]
  split_ifs with hOutside
  · have hNode : forest.nodes[x]? = none := Array.getElem?_eq_none hOutside
    rw [find_of_le hOutside, compress_of_not_link (by simp [hNode])]
    rfl
  · obtain ⟨root, rep, visited, hWalk, hFind, hRetrace⟩ :=
      walk_retrace hForest (Nat.lt_of_not_le hOutside) (Nat.lt_of_not_le hOutside) []
    have hBack := hRetrace []
    rw [List.append_nil] at hWalk hBack
    simp only [bind, Except.bind, hWalk, hBack, hFind, retrace]
    rfl

/-- Searches one after the other all go well, and each gives the answer that it would have given
first. -/
theorem searchAll_eq (hForest : forest.WellFormed) (xs : List Nat) :
    forest.searchAll xs = .ok (xs.map forest.find, xs.foldl compress forest) := by
  induction xs generalizing forest with
  | nil => rfl
  | cons x rest ih =>
      have hShorter := compress_agrees hForest x
      have hFind : (forest.compress x).find = forest.find := funext hShorter.find
      simp only [searchAll, bind, Except.bind, search_eq hForest, ih hShorter.wellFormed, hFind]
      rfl

end ArithCircuit.Forest

namespace ArithCircuit

/-- Divide by a number that must not be zero. -/
def Residue.quotient {p : Nat} [Modulus p] (a b : Residue p) : Except Stop (Residue p) :=
  if b = 0 then .error .abort else .ok (a / b)

namespace VariableTable

variable {p : Nat} [Modulus p]

/-- Write a form in terms of what was found for its variables. -/
def resolveFound (form : LinearForm p) (found : List (Option (Rep p))) : LinearForm p :=
  (form.terms.zip found).foldr
    (fun entry rest =>
      match entry.2.getD (.ofVar entry.1.2) with
      | .var index coeff offset =>
        ⟨(entry.1.1 * coeff, index) :: rest.terms, rest.constant + entry.1.1 * offset⟩
      | .const value => ⟨rest.terms, rest.constant + entry.1.1 * value⟩)
    (.ofConstant form.constant)

/-- Try to absorb an equation, with searches for its variables and divisors that must not be
zero. -/
def solve (table : VariableTable p) (form : LinearForm p) (policy : Unification)
    (label : Option String) : Except Stop (Option (VariableTable p)) :=
  if policy = .off then .ok none
  else do
    let (found, classes) ← table.classes.searchAll (form.terms.map Prod.snd)
    let resolved := (resolveFound form found).normalize
    match resolved.terms with
    | [] =>
      if resolved.constant = 0 then .ok (some { table with classes := classes })
      else .error (.fault (.unsatisfied label (resolved.constant.signed ++ " = 0") []))
    | [(c, u)] =>
      if table.isPublic u ∨ (policy = .aliases ∧ ¬(c = 1 ∨ -c = 1)) then .ok none
      else do
        let value ← (-resolved.constant).quotient c
        (pin { table with classes := classes } u value).map some
    | [(cu, u), (cv, v)] =>
      if table.isPublic v ∨ (policy = .aliases ∧ ¬(cu + cv = 0 ∧ resolved.constant = 0)) then
        .ok none
      else do
        let coeff ← (-cu).quotient cv
        let offset ← (-resolved.constant).quotient cv
        (link { table with classes := classes } v u coeff offset).map some
    | _ => .ok none

theorem resolveFound_eq (table : VariableTable p) (form : LinearForm p) :
    resolveFound form (form.terms.map (table.classes.find ∘ Prod.snd)) = table.resolve form := by
  rw [resolveFound, resolve, resolveBefore]
  generalize LinearForm.ofConstant form.constant = rest
  induction form.terms with
  | nil => rfl
  | cons term terms ih =>
      rw [List.map_cons, List.zip_cons_cons, List.foldr_cons, List.foldr_cons, ih]
      rfl

/-- Absorbing an equation goes through without giving up, except where a link or a pin would. The
terms that are left after merging have coefficients that one can divide by. -/
theorem solve_eq [Fact p.Prime] {table : VariableTable p} (hClasses : table.classes.WellFormed)
    (form : LinearForm p) (policy : Unification) (label : Option String) :
    table.solve form policy label = table.unify form policy label := by
  have hShorter : (form.terms.map Prod.snd).foldl Forest.compress table.classes =
      (table.compress form).classes := List.foldl_map
  have hCoeffs := (table.resolve form).normalize_coeff_ne_zero
  rw [solve, unify, Forest.searchAll_eq hClasses, hShorter, List.map_map]
  split_ifs with hOff
  · rfl
  · simp only [bind, Except.bind, resolveFound_eq]
    generalize (table.resolve form).normalize = resolved at hCoeffs ⊢
    obtain ⟨terms, constant⟩ := resolved
    rcases terms with _ | ⟨⟨cu, u⟩, _ | ⟨⟨cv, v⟩, _ | ⟨third, rest⟩⟩⟩
    · rfl
    · have hDivisor : cu ≠ 0 := hCoeffs (cu, u) List.mem_cons_self
      simp only [Residue.quotient, if_neg hDivisor]
      rfl
    · have hDivisor : cv ≠ 0 := hCoeffs (cv, v) (List.mem_cons_of_mem _ List.mem_cons_self)
      simp only [Residue.quotient, if_neg hDivisor]
      rfl
    · rfl

end VariableTable

end ArithCircuit
