import ArithCircuit.Fault
import ArithCircuit.Proofs.LinearForm

/-! Normal forms. Linear forms have a canonical one: normalizing decides whether two forms, or two
expressions, are the same function. Expressions have none, but their operators keep what they mean
and leave nothing behind that they could have folded. A constant is therefore recognised by its
shape. -/
namespace ArithCircuit

namespace Expr

variable {p : Nat}

/-- Read every variable from a total assignment. -/
def total (w : Nat → Residue p) : Nat → Except Fault (Residue p) := fun i => .ok (w i)

theorem eval_total (w : Nat → Residue p) (e : Expr p) : e.eval (total w) = .ok (e.value w) :=
  eval_eq_value e fun _ _ => rfl

end Expr

namespace LinearForm

variable {p : Nat} [Modulus p]

theorem normalize_eq_iff (a b : LinearForm p) :
    a.normalize = b.normalize ↔ ∀ w, a.value w = b.value w := by
  constructor
  · intro h w
    rw [← value_normalize, h, value_normalize]
  · exact normalize_eq_of_value_eq

theorem normalize_idempotent (form : LinearForm p) : form.normalize.normalize = form.normalize :=
  (normalize_eq_iff _ _).mpr fun w => value_normalize w form

/-- The normal form is canonical. Two linear forms have the same one iff they take the same value
under every assignment, and likewise two expressions. It lists its variables in strictly increasing
order, has no coefficient zero, and is its own normal form. -/
theorem normalize_canonical (a b : LinearForm p) (e e' : Expr p) :
    (a.normalize = b.normalize ↔ ∀ w, a.value w = b.value w) ∧
    a.normalize.terms.Pairwise (·.2 < ·.2) ∧
    (∀ term ∈ a.normalize.terms, term.1 ≠ 0) ∧
    a.normalize.normalize = a.normalize ∧
    (e.linear.normalize = e'.linear.normalize ↔
      ∀ w, e.eval (Expr.total w) = e'.eval (Expr.total w)) := by
  refine ⟨a.normalize_eq_iff b, a.normalize_sorted, a.normalize_coeff_ne_zero,
    a.normalize_idempotent, ?_⟩
  rw [normalize_eq_iff]
  simp only [Expr.value_linear, Expr.eval_total, Except.ok.injEq]

/-- Terms that cancel only when they are collected, in one case because their coefficients add up
to the modulus. -/
theorem normalize_canonical_cancelled :
    let a : LinearForm 7 := ⟨[(1 + 1, 3), (1, 1), (-1, 3), (0, 2), (-1, 3)], 1⟩
    let e : Expr 7 := .add (.scale (.ofNat 7 2) (.var 3)) (.scale (.ofNat 7 5) (.var 3))
    a.normalize = ⟨[(1, 1)], 1⟩ ∧ (∀ w, a.value w = w 1 + 1) ∧
      ∀ w, e.eval (Expr.total w) = (Expr.const 0).eval (Expr.total w) := by
  intro a e
  obtain ⟨hForm, -, -, -, hExpr⟩ := normalize_canonical a ⟨[(1, 1)], 1⟩ e (.const 0)
  have hNormal : a.normalize = ⟨[(1, 1)], 1⟩ := by decide +kernel
  have hZero : e.linear.normalize = (Expr.const 0 : Expr 7).linear.normalize := by decide +kernel
  refine ⟨hNormal, fun w => ?_, hExpr.mp hZero⟩
  rw [hForm.mp (hNormal.trans (by decide +kernel)) w]
  simp [value]

end LinearForm

namespace Expr

variable {p : Nat}

/-- An expression and all those inside it. -/
def nodes : Expr p → List (Expr p)
  | .const value => [.const value]
  | .var index => [.var index]
  | .add left right => .add left right :: (left.nodes ++ right.nodes)
  | .scale factor body => .scale factor body :: body.nodes

variable [Modulus p]

theorem value_neg (w : Nat → Residue p) (e : Expr p) : (-e).value w = -e.value w := by
  show (e.scaleBy (-1)).value w = -e.value w
  rw [value_scaleBy, neg_one_mul]

theorem value_combination (w : Nat → Residue p) (terms : List (Residue p × Expr p)) :
    (combination terms).value w = (terms.map fun term => term.1 * term.2.value w).sum := by
  have hFold (start : Expr p) :
      (terms.foldl (fun sum term => sum + term.2.scaleBy term.1) start).value w =
        start.value w + (terms.map fun term => term.1 * term.2.value w).sum := by
    induction terms generalizing start with
    | nil => simp
    | cons term rest ih =>
        rw [List.foldl_cons, ih, value_add, value_scaleBy, List.map_cons, List.sum_cons, add_assoc]
  rw [combination, hFold, value_zero, zero_add]

theorem value_sum (w : Nat → Residue p) (terms : List (Expr p)) :
    (sum terms).value w = (terms.map fun e => e.value w).sum := by
  simp [sum, value_combination, Function.comp_def]

/-- A node for which an operator has a simpler form. -/
inductive Foldable : Expr p → Prop where
  | scaleZero (body : Expr p) : Foldable (.scale 0 body)
  | scaleOne (body : Expr p) : Foldable (.scale 1 body)
  | scaleScale (outer inner : Residue p) (body : Expr p) :
      Foldable (.scale outer (.scale inner body))
  | scaleConst (factor value : Residue p) : Foldable (.scale factor (.const value))
  | addConst (x y : Residue p) : Foldable (.add (.const x) (.const y))
  | zeroAdd (right : Expr p) : Foldable (.add (.const 0) right)
  | addZero (left : Expr p) : Foldable (.add left (.const 0))

/-- No node of the expression can be folded. -/
def Folded (e : Expr p) : Prop := ∀ node ∈ e.nodes, ¬ Foldable node

/-- The expressions that the operators build from variables and constants. -/
inductive Built : Expr p → Prop where
  | const (value : Residue p) : Built (.const value)
  | var (index : Nat) : Built (.var index)
  | add {a b : Expr p} (ha : Built a) (hb : Built b) : Built (a + b)
  | sub {a b : Expr p} (ha : Built a) (hb : Built b) : Built (a - b)
  | neg {a : Expr p} (ha : Built a) : Built (-a)
  | scaleBy {a : Expr p} (ha : Built a) (k : Residue p) : Built (a.scaleBy k)
  | sum {terms : List (Expr p)} (h : ∀ e ∈ terms, Built e) : Built (sum terms)
  | combination {terms : List (Residue p × Expr p)} (h : ∀ term ∈ terms, Built term.2) :
      Built (combination terms)

theorem folded_const (x : Residue p) : Folded (.const x) := by
  rintro node hNode
  rw [List.mem_singleton.mp hNode]
  rintro ⟨⟩

theorem folded_var (index : Nat) : Folded (.var index : Expr p) := by
  rintro node hNode
  rw [List.mem_singleton.mp hNode]
  rintro ⟨⟩

theorem folded_add_iff (a b : Expr p) :
    Folded (.add a b) ↔ ¬ Foldable (.add a b) ∧ Folded a ∧ Folded b := by
  rw [Folded, nodes, List.forall_mem_cons, List.forall_mem_append]
  rfl

theorem folded_scale_iff (k : Residue p) (e : Expr p) :
    Folded (.scale k e) ↔ ¬ Foldable (.scale k e) ∧ Folded e := by
  rw [Folded, nodes, List.forall_mem_cons]
  rfl

/-- A folded expression without variables is a constant: there is nothing else to build it from. -/
theorem Folded.const_of_vars {e : Expr p} (h : Folded e) (hVars : e.vars = []) :
    ∃ x, e = .const x := by
  induction e with
  | const x => exact ⟨x, rfl⟩
  | var index => cases hVars
  | add left right ihLeft ihRight =>
      obtain ⟨hNode, hLeft, hRight⟩ := (folded_add_iff left right).mp h
      obtain ⟨hLeftVars, hRightVars⟩ := List.append_eq_nil_iff.mp hVars
      obtain ⟨x, rfl⟩ := ihLeft hLeft hLeftVars
      obtain ⟨y, rfl⟩ := ihRight hRight hRightVars
      exact absurd (.addConst x y) hNode
  | scale factor body ih =>
      obtain ⟨hNode, hBody⟩ := (folded_scale_iff factor body).mp h
      obtain ⟨x, rfl⟩ := ih hBody hVars
      exact absurd (.scaleConst factor x) hNode

theorem Folded.add {a b : Expr p} (ha : Folded a) (hb : Folded b) : Folded (a + b) := by
  change Folded (plus a b)
  unfold plus
  split_ifs with hLeft hRight
  · exact hb
  · exact ha
  · split
    · exact folded_const _
    · rename_i hConsts
      refine (folded_add_iff a b).mpr ⟨fun hNode => ?_, ha, hb⟩
      cases hNode with
      | addConst x y => exact hConsts x y rfl rfl
      | zeroAdd => exact hLeft rfl
      | addZero => exact hRight rfl

theorem Folded.scale {k : Residue p} {e : Expr p} (h : Folded e) (hZero : k ≠ 0) (hOne : k ≠ 1)
    (hConst : ∀ x, e ≠ .const x) (hScale : ∀ factor body, e ≠ .scale factor body) :
    Folded (.scale k e) := by
  refine (folded_scale_iff k e).mpr ⟨fun hNode => ?_, h⟩
  cases hNode with
  | scaleZero => exact hZero rfl
  | scaleOne => exact hOne rfl
  | scaleScale _ factor body => exact hScale factor body rfl
  | scaleConst _ x => exact hConst x rfl

/-- Factors merge, and a product of factors that are not zero is not zero. -/
theorem Folded.scaleBy [Fact p.Prime] {e : Expr p} (h : Folded e) (k : Residue p) :
    Folded (e.scaleBy k) := by
  unfold Expr.scaleBy
  split_ifs with hZero hOne
  · exact folded_const k
  · exact h
  · cases e with
    | const x => exact folded_const _
    | var index => exact h.scale hZero hOne (by simp) (by simp)
    | add left right => exact h.scale hZero hOne (by simp) (by simp)
    | scale factor body =>
        obtain ⟨hNode, hBody⟩ := (folded_scale_iff factor body).mp h
        have hFactor : factor ≠ 0 := by
          rintro rfl
          exact hNode (.scaleZero body)
        by_cases hCancel : factor * k = 1
        · simp only [if_pos hCancel]
          exact hBody
        · simp only [if_neg hCancel]
          refine hBody.scale (mul_ne_zero hFactor hZero) hCancel ?_ ?_
          · rintro x rfl
            exact hNode (.scaleConst factor x)
          · rintro inner body rfl
            exact hNode (.scaleScale factor inner body)

theorem Folded.sub [Fact p.Prime] {a b : Expr p} (ha : Folded a) (hb : Folded b) :
    Folded (a - b) := by
  change Folded (minus a b)
  unfold minus
  split
  · exact folded_const _
  · exact ha.add (hb.scaleBy (-1))

theorem Folded.combination [Fact p.Prime] {terms : List (Residue p × Expr p)}
    (h : ∀ term ∈ terms, Folded term.2) : Folded (combination terms) := by
  have hFold (start : Expr p) (hStart : Folded start) :
      Folded (terms.foldl (fun sum term => sum + term.2.scaleBy term.1) start) := by
    induction terms generalizing start with
    | nil => exact hStart
    | cons term rest ih =>
        obtain ⟨hTerm, hRest⟩ := List.forall_mem_cons.mp h
        exact ih hRest _ (hStart.add (hTerm.scaleBy term.1))
  exact hFold _ (folded_const 0)

theorem Built.folded [Fact p.Prime] {e : Expr p} (h : Built e) : Folded e := by
  induction h with
  | const x => exact folded_const x
  | var index => exact folded_var index
  | add _ _ ha hb => exact ha.add hb
  | sub _ _ ha hb => exact ha.sub hb
  | neg _ ha => exact ha.scaleBy (-1)
  | scaleBy _ k ha => exact ha.scaleBy k
  | sum _ ih =>
      refine Folded.combination fun term hTerm => ?_
      obtain ⟨e, he, rfl⟩ := List.mem_map.mp hTerm
      exact ih e he
  | combination _ ih => exact .combination ih

/-- The operators compute on expressions what the field does on their values, and build nothing
that they could have folded: no factor zero or one, no factor over another factor or over a
constant, no sum of two constants and none with the constant zero. An expression that they build is
a constant exactly if it mentions no variable. -/
theorem operators_fold [Fact p.Prime] (w : Nat → Residue p) (a b : Expr p) (k : Residue p)
    (terms : List (Expr p)) (scaled : List (Residue p × Expr p)) :
    (∀ e : Expr p, e.eval (total w) = .ok (e.value w)) ∧
    (a + b).value w = a.value w + b.value w ∧
    (a - b).value w = a.value w - b.value w ∧
    (-a).value w = -a.value w ∧
    (a.scaleBy k).value w = k * a.value w ∧
    (sum terms).value w = (terms.map fun e => e.value w).sum ∧
    (combination scaled).value w = (scaled.map fun term => term.1 * term.2.value w).sum ∧
    ∀ e : Expr p, Built e → Folded e ∧ ((∃ x, e = .const x) ↔ e.vars = []) := by
  refine ⟨eval_total w, value_add w a b, value_sub w a b, value_neg w a, value_scaleBy w a k,
    value_sum w terms, value_combination w scaled, fun e hBuilt => ⟨hBuilt.folded, ?_⟩⟩
  constructor
  · rintro ⟨x, rfl⟩
    rfl
  · exact hBuilt.folded.const_of_vars

/-- Factors that cancel to one, constants that cancel to zero, and a difference that is always zero
but no constant. -/
theorem operators_fold_cancelled :
    let x : Expr 7 := (Expr.var 0).scaleBy (.ofNat 7 2)
    let e : Expr 7 := sum [x.scaleBy (.ofNat 7 4), const 1 - const 1, -(Expr.var 1 + x)]
    let zero : Expr 7 := Expr.var 0 - Expr.var 0
    e = .add (.var 0) (.scale (-1) (.add (.var 1) (.scale (.ofNat 7 2) (.var 0)))) ∧
      Folded e ∧ (∀ w, zero.value w = 0) ∧ ¬ ∃ k, zero = .const k := by
  intro x e zero
  have : Fact (Nat.Prime 7) := ⟨by decide⟩
  have hx : Built x := .scaleBy (.var 0) _
  have he : Built e := by
    refine .sum fun term hTerm => ?_
    simp only [List.mem_cons, List.not_mem_nil, or_false] at hTerm
    rcases hTerm with rfl | rfl | rfl
    · exact .scaleBy hx _
    · exact .sub (.const 1) (.const 1)
    · exact .neg (.add (.var 1) hx)
  have hZero : Built zero := .sub (.var 0) (.var 0)
  have hAll (w : Nat → Residue 7) := operators_fold w (.var 0) (.var 0) 1 [] []
  obtain ⟨-, -, -, -, -, -, -, hBuilt⟩ := hAll 0
  refine ⟨by decide +kernel, (hBuilt e he).1, fun w => ?_, fun hConst => ?_⟩
  · exact (hAll w).2.2.1.trans (sub_self _)
  · exact absurd ((hBuilt zero hZero).2.mp hConst) (by decide +kernel)

end Expr

end ArithCircuit
