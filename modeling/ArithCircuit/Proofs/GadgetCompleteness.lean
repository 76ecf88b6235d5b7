import ArithCircuit.Proofs.GadgetSoundness

/-! When gadgets succeed. Take an assignment that agrees with the classes and the values of a run. A
constraint that it satisfies is added without refusal, and new variables can be given any values. So
each gadget succeeds whose constraints hold once its new variables have the values that it computes
for them, and its result has the value that it stands for. -/
namespace ArithCircuit

namespace VariableTable

variable {p : Nat}

theorem foldl_alloc_values (table : VariableTable p) (values : List (Option (Residue p))) :
    (values.foldl alloc table).values = table.values ++ values.toArray := by
  induction values generalizing table with
  | nil => simp
  | cons value rest ih =>
      rw [List.foldl_cons, ih]
      simp [alloc]

theorem foldl_alloc_size (table : VariableTable p) (values : List (Option (Residue p))) :
    (values.foldl alloc table).size = table.size + values.length := by
  simp [size, foldl_alloc_values]

theorem foldl_alloc_value_old (table : VariableTable p) (values : List (Option (Residue p)))
    {x : Nat} (hx : x < table.size) : (values.foldl alloc table).value x = table.value x := by
  rw [value, foldl_alloc_values, Array.getElem?_append_left hx, ← value]

theorem foldl_alloc_value_new (table : VariableTable p) (values : List (Residue p)) {i : Nat}
    (hi : i < values.length) :
    ((values.map some).foldl alloc table).value (table.size + i) = .ok values[i] := by
  rw [value_eq_ok_iff, foldl_alloc_values, size, Array.getElem?_append_right (Nat.le_add_right _ _)]
  simp [hi]

variable [Modulus p] {table : VariableTable p} {w : Nat → Residue p}

/-- The assignment that gives these values to the variables after those of the table. -/
def extend (table : VariableTable p) (w : Nat → Residue p) (values : List (Residue p))
    (x : Nat) : Residue p :=
  if x < table.size then w x else values.getD (x - table.size) 0

theorem extend_old {x : Nat} (hx : x < table.size) (values : List (Residue p)) :
    table.extend w values x = w x :=
  if_pos hx

theorem extend_new {values : List (Residue p)} {i : Nat} (hi : i < values.length) :
    table.extend w values (table.size + i) = values[i] := by
  rw [extend, if_neg (Nat.not_lt_of_le (Nat.le_add_right _ _)), Nat.add_sub_cancel_left,
    List.getD_eq_getElem?_getD, List.getElem?_eq_getElem hi, Option.getD_some]

/-- Variables outside the table are not related to anything, so they may have any value. -/
theorem Consistent.extend [Fact p.Prime] (hTable : table.WellFormed) (hw : table.Consistent w)
    (values : List (Residue p)) : table.Consistent (table.extend w values) := by
  intro x
  by_cases hx : x < table.size
  · rw [extend_old hx, hw x]
    cases hRep : table.rep x with
    | const k => rfl
    | var r c o =>
        have hFree := (rep_var hTable hx hRep).1
        rw [Rep.value, Rep.value, extend_old (hFree.lt_size hTable)]
  · rw [rep_of_le hTable (Nat.le_of_not_lt hx), Rep.value_ofVar]

theorem ValuedBy.extend (hw : table.ValuedBy w) (values : List (Residue p)) :
    ((values.map some).foldl alloc table).ValuedBy (table.extend w values) := by
  intro x y hy
  by_cases hx : x < table.size
  · rw [extend_old hx]
    exact hw x y ((foldl_alloc_value_old table _ hx).symm.trans hy)
  · have hLess : x < table.size + values.length := by
      have hKnown : ((values.map some).foldl alloc table).Known x := ⟨y, hy⟩
      simpa only [foldl_alloc_size, List.length_map] using hKnown.lt_size
    obtain ⟨i, rfl⟩ := Nat.exists_eq_add_of_le (Nat.le_of_not_lt hx)
    have hi : i < values.length := Nat.lt_of_add_lt_add_left hLess
    rw [extend_new hi]
    exact Except.ok.inj ((foldl_alloc_value_new table values hi).symm.trans hy)

end VariableTable

theorem Stateful.bind_of_ok {σ α β : Type} {first : Stateful σ α} {next : α → Stateful σ β}
    {s s' : σ} {a : α} (h : first s = (.ok a, s')) : (first >>= next) s = next a s' := by
  simp only [bind, andThen, h]

theorem Stateful.bind_of_error {σ α β : Type} {first : Stateful σ α} {next : α → Stateful σ β}
    {s s' : σ} {stop : Stop} (h : first s = (.error stop, s')) :
    (first >>= next) s = (.error stop, s') := by
  simp only [bind, andThen, h]

namespace RunState

section Operands

variable {p : Nat} {state : RunState p} {a b : Expr p}

/-- The variable is allocated, and has a value in the modes that compute values. -/
def Has (state : RunState p) (x : Nat) : Prop :=
  x < state.table.size ∧
    (state.mode.hasWitness = true → state.table.Known x)

/-- All variables of the expression can be used. -/
def Covers (state : RunState p) (e : Expr p) : Prop := ∀ x ∈ e.vars, state.Has x

theorem Covers.mono {e : Expr p} (ha : state.Covers a) (hSubset : e.vars ⊆ a.vars) :
    state.Covers e :=
  fun x hx => ha x (hSubset hx)

theorem Covers.append {e : Expr p} (ha : state.Covers a) (hb : state.Covers b)
    (hSubset : e.vars ⊆ a.vars ++ b.vars) : state.Covers e :=
  fun x hx => List.forall_mem_append.mpr ⟨ha, hb⟩ x (hSubset hx)

theorem Covers.const (k : Residue p) : state.Covers (.const k) := nofun

theorem Covers.product {c : Expr p} (ha : state.Covers a) (hb : state.Covers b)
    (hc : state.Covers c) : ∀ x ∈ (Constraint.product a b c).vars, state.Has x :=
  List.forall_mem_append.mpr ⟨List.forall_mem_append.mpr ⟨ha, hb⟩, hc⟩

end Operands

variable {p : Nat} [Modulus p] {mode : Mode} {w w' : Nat → Residue p} {state next : RunState p}
  {a b : Expr p}

/-- The assignment agrees with the classes, and with the values in the modes that compute them. -/
structure ModelledBy (mode : Mode) (w : Nat → Residue p) (state : RunState p) : Prop
    extends state.Live mode where
  active : mode ≠ .idle
  consistent : state.table.Consistent w
  valued : mode.hasWitness = true → state.table.ValuedBy w

/-- A later state, with an assignment that differs only on variables that are new. -/
structure Continues (mode : Mode) (state : RunState p) (w : Nat → Residue p) (next : RunState p)
    (w' : Nat → Residue p) : Prop extends next.ModelledBy mode w' where
  has : ∀ {x}, state.Has x → next.Has x
  same : ∀ {x}, state.Has x → w' x = w x

namespace Continues

theorem refl (h : state.ModelledBy mode w) : state.Continues mode w state w :=
  ⟨h, fun h => h, fun _ => rfl⟩

theorem trans {final : RunState p} {w'' : Nat → Residue p} (h : state.Continues mode w next w')
    (hNext : next.Continues mode w' final w'') : state.Continues mode w final w'' :=
  ⟨hNext.toModelledBy, fun hx => hNext.has (h.has hx),
    fun hx => (hNext.same (h.has hx)).trans (h.same hx)⟩

theorem covers (h : state.Continues mode w next w') (ha : state.Covers a) : next.Covers a :=
  fun x hx => h.has (ha x hx)

theorem value_eq (h : state.Continues mode w next w') (ha : state.Covers a) :
    a.value w' = a.value w :=
  Expr.value_congr fun x hx => h.same (ha x hx)

end Continues

omit [Modulus p] in
theorem hasWitness_of_checks (h : Action.checks state = true) :
    state.mode.hasWitness = true := by
  unfold Action.checks at h
  split at h
  · rename_i hMode
    rw [hMode]
    rfl
  · rename_i hMode
    rw [hMode]
    rfl
  · cases h
  · cases h

namespace ModelledBy

/-- Constraints change the classes and the recording, and not the values. -/
theorem continues (h : state.ModelledBy mode w) (hMode : next.mode = state.mode)
    (hRecording : next.recording.isSome = state.recording.isSome)
    (hTable : next.table.WellFormed)
    (hValues : next.table.values = state.table.values)
    (hw : next.table.Consistent w) : state.Continues mode w next w := by
  refine ⟨⟨⟨hMode.trans h.mode_eq, hTable, hRecording.trans h.recording⟩, h.active, hw,
    fun hWitness => ?_⟩, fun hx => ⟨?_, fun hWitness => ?_⟩, fun _ => rfl⟩
  · exact (VariableTable.valuesIn_of_eq hValues.symm).valuedBy (h.valued hWitness)
  · exact Nat.lt_of_lt_of_eq hx.1 (congrArg Array.size hValues.symm)
  · exact (VariableTable.valuesIn_of_eq hValues).known (hx.2 (hMode ▸ hWitness))

theorem read_eq (h : state.ModelledBy mode w) (hWitness : mode.hasWitness = true)
    (ha : state.Covers a) : state.read a = .ok (a.value w) := by
  have hMode : state.mode.hasWitness = true := h.toLive.hasWitness.trans hWitness
  rw [read_eq_eval hMode]
  exact Expr.eval_eq_value a fun x hx => ((ha x hx).2 hMode).value_eq (h.valued hWitness)

theorem covers_of_read (h : state.ModelledBy mode w) (hWitness : mode.hasWitness = true)
    {x : Residue p} (ha : state.read a = .ok x) : state.Covers a ∧ a.value w = x := by
  have hMode : state.mode.hasWitness = true := h.toLive.hasWitness.trans hWitness
  have hCovers : state.Covers a := by
    rw [read_eq_eval hMode] at ha
    intro i hi
    have hKnown : state.table.Known i := Expr.exists_read_of_eval ha hi
    exact ⟨hKnown.lt_size, fun _ => hKnown⟩
  exact ⟨hCovers, Except.ok.inj ((h.read_eq hWitness hCovers).symm.trans ha)⟩

theorem peek_eq (h : state.ModelledBy mode w) (hWitness : mode.hasWitness = true)
    (ha : state.Covers a) : Gadget.peek state.env a = .ok (a.value w) := by
  show (state.read a).mapError Stop.fault = _
  rw [h.read_eq hWitness ha]
  rfl

/-- New variables are given their values, and nothing else changes. -/
theorem alloc [Fact p.Prime] (h : state.ModelledBy mode w) (given : List (Option (Residue p)))
    (values : List (Residue p)) (hLength : given.length = values.length)
    (hGiven : mode.hasWitness = true → given = values.map some) :
    state.Continues mode w (state.allocAll .alloc given).2 (state.table.extend w values) ∧
      ∀ i < values.length, (state.allocAll .alloc given).2.Has (state.table.size + i) := by
  have hTable := VariableTable.foldl_alloc_enlarges h.wellFormed given
  have hSize : (given.foldl .alloc state.table).size =
      state.table.size + values.length := by
    rw [VariableTable.foldl_alloc_size, hLength]
  refine ⟨⟨⟨h.toLive.alloc given, h.active, ?_, fun hWitness => ?_⟩,
    fun hx => ⟨?_, fun hWitness => hTable.valuesIn.known (hx.2 hWitness)⟩,
    fun hx => VariableTable.extend_old hx.1 values⟩, fun i hi => ⟨?_, fun hWitness => ?_⟩⟩
  · exact (hTable.consistent_iff _).mpr (h.consistent.extend h.wellFormed values)
  · have hValued := (h.valued hWitness).extend values
    rwa [← hGiven hWitness] at hValued
  · exact Nat.lt_of_lt_of_le hx.1 (hSize ▸ Nat.le_add_right _ _)
  · exact hSize ▸ Nat.add_lt_add_left hi _
  · have hNew := VariableTable.foldl_alloc_value_new state.table values hi
    rw [← hGiven (h.toLive.hasWitness ▸ hWitness)] at hNew
    exact ⟨_, hNew⟩

/-- The classes do not refuse what the assignment satisfies. -/
theorem record [Fact p.Prime] (h : state.ModelledBy mode w) (assertion : Assertion p)
    (hArity : assertion.constraint.checkArity = .ok ())
    (hVars : ∀ x ∈ assertion.constraint.vars, state.Has x) (hHolds : assertion.constraint.Holds w) :
    ∃ next, Action.record assertion state = (.ok (), next) ∧ state.Continues mode w next w := by
  cases hRecording : state.recording with
  | none => exact ⟨state, Action.record_of_none hRecording assertion, .refl h⟩
  | some recording =>
      rw [Action.record_of_some hRecording]
      rcases recording.add_cases state.table assertion with
        ⟨stop, recording', -, hAbsorb⟩ | ⟨recording', table, hAdd, -, hAbsorb⟩ |
        ⟨recording', hAdd, -⟩
      · -- the classes refuse only what none of their assignments satisfies
        have hNever := (VariableTable.absorb_error h.wellFormed (fun x hx => (hVars x hx).1)
          (hAbsorb hArity)).2
        exact absurd hHolds (hNever w h.consistent)
      · have hTable := VariableTable.absorb_absorbed h.wellFormed hAbsorb
        rw [hAdd]
        exact ⟨_, rfl, h.continues rfl (by rw [hRecording]; rfl) hTable.wellFormed hTable.values
          ((hTable.consistent_iff w).mpr ⟨h.consistent, hHolds⟩)⟩
      · rw [hAdd]
        exact ⟨_, rfl, h.continues rfl (by rw [hRecording]; rfl) h.wellFormed rfl h.consistent⟩

/-- A constraint that the assignment satisfies passes its check and is recorded. -/
theorem constrain [Fact p.Prime] (h : state.ModelledBy mode w) {constraint : Constraint p}
    (label : Option String) (hArity : constraint.checkArity = .ok ())
    (hVars : ∀ x ∈ constraint.vars, state.Has x) (hHolds : constraint.Holds w) :
    ∃ next, Action.constrain constraint label state = (.ok (), next) ∧
      state.Continues mode w next w := by
  have hCheck : Action.checks state = true → constraint.check label state.read = .ok () := by
    intro hChecks
    have hMode := hasWitness_of_checks hChecks
    rw [read_eq_eval hMode]
    refine (Constraint.check_iff_holds constraint label fun x hx => ?_).mpr hHolds
    exact ((hVars x hx).2 hMode).value_eq (h.valued (h.toLive.hasWitness ▸ hMode))
  obtain ⟨next, hNext, hContinues⟩ := h.record ⟨label, constraint⟩ hArity hVars hHolds
  exact ⟨next, Action.constrain_eq_ok_iff.mpr ⟨h.mode_eq ▸ h.active, hArity, hCheck, hNext⟩,
    hContinues⟩

/-- Variables are introduced with the values that are computed for them. -/
theorem introduce [Fact p.Prime] (h : state.ModelledBy mode w)
    (compute : Env p → Except Stop (List (Residue p))) (values : List (Residue p))
    (hValues : mode.hasWitness = true → compute state.env = .ok values) :
    ∃ next, Action.introduce values.length compute state =
        (.ok ((List.range values.length).map fun i => .var (state.table.size + i)), next) ∧
      state.Continues mode w next (state.table.extend w values) ∧
      ∀ i < values.length, next.Has (state.table.size + i) := by
  have hIdle : state.mode ≠ .idle := h.mode_eq ▸ h.active
  simp only [Action.introduce, Action.inMode, if_neg hIdle]
  split_ifs with hWitness
  · have hComputed := hValues (h.toLive.hasWitness ▸ hWitness)
    refine ⟨_, ?_, h.alloc (values.map some) values (List.length_map some) fun _ => rfl⟩
    simp only [hComputed, ne_eq, not_true_eq_false, if_false, allocAll, List.length_map]
  · refine ⟨_, ?_, h.alloc (List.replicate values.length none) values List.length_replicate
      fun hOn => absurd (h.toLive.hasWitness.trans hOn) hWitness⟩
    simp only [allocAll, List.length_replicate]

end ModelledBy

end RunState

open RunState

namespace Action

variable {p : Nat} [Modulus p] {mode : Mode} {w : Nat → Residue p} {state : RunState p}

/-- The operation succeeds with an expression of the given value, under an assignment that agrees
with the run before and after it. -/
def Returns (mode : Mode) (state : RunState p) (w : Nat → Residue p) (action : Action p (Expr p))
    (value : Residue p) : Prop :=
  ∃ r next w', action state = (.ok r, next) ∧ state.Continues mode w next w' ∧ next.Covers r ∧
    r.value w' = value

namespace Returns

variable {action : Action p (Expr p)} {value : Residue p}

theorem ret (h : state.ModelledBy mode w) {e : Expr p} (he : state.Covers e) :
    Returns mode state w (pure e) (e.value w) :=
  ⟨e, state, w, rfl, .refl h, he, rfl⟩

/-- What remains to be done after some steps is done from where they led. -/
theorem after {rest : Action p (Expr p)} {next : RunState p} {w' : Nat → Residue p}
    (h : Returns mode next w' rest value) (hContinues : state.Continues mode w next w')
    (hStep : action state = rest next) : Returns mode state w action value := by
  obtain ⟨r, final, w'', hFinal, hMore, hLast⟩ := h
  exact ⟨r, final, w'', hStep.trans hFinal, hContinues.trans hMore, hLast⟩

theorem andThen {rest : Expr p → Action p (Expr p)} {result : Residue p}
    (h : Returns mode state w action value)
    (hRest : ∀ {r next w'}, state.Continues mode w next w' → next.Covers r → r.value w' = value →
      Returns mode next w' (rest r) result) :
    Returns mode state w (action >>= rest) result := by
  obtain ⟨r, next, w', hResult, hContinues, hCovers, hValue⟩ := h
  exact (hRest hContinues hCovers hValue).after hContinues (Stateful.bind_of_ok hResult)

section Fresh

variable [Fact p.Prime] (h : state.ModelledBy mode w)
include h

/-- The rest is carried out with new variables, which have the values that were computed. -/
theorem of_introduce {compute : Env p → Except Stop (List (Residue p))}
    {rest : List (Expr p) → Action p (Expr p)} (values : List (Residue p))
    (hValues : mode.hasWitness = true → compute state.env = .ok values)
    (hRest : ∀ {next w'}, state.Continues mode w next w' →
      (∀ i (hi : i < values.length), next.Covers (.var (state.table.size + i)) ∧
        w' (state.table.size + i) = values[i]) →
      Returns mode next w'
        (rest ((List.range values.length).map fun i => .var (state.table.size + i))) value) :
    Returns mode state w (Action.introduce values.length compute >>= rest) value := by
  obtain ⟨next, hNext, hContinues, hNew⟩ := h.introduce compute values hValues
  refine (hRest hContinues fun i hi => ⟨fun x hx => ?_, VariableTable.extend_new hi⟩).after
    hContinues (Stateful.bind_of_ok hNext)
  rw [List.mem_singleton.mp hx]
  exact hNew i hi

/-- The rest is carried out after a constraint that holds. -/
theorem of_constrain {constraint : Constraint p} {label : Option String}
    {rest : Unit → Action p (Expr p)} (hArity : constraint.checkArity = .ok ())
    (hVars : ∀ x ∈ constraint.vars, state.Has x) (hHolds : constraint.Holds w)
    (hRest : ∀ {next}, state.Continues mode w next w → Returns mode next w (rest ()) value) :
    Returns mode state w (Action.constrain constraint label >>= rest) value := by
  obtain ⟨next, hNext, hContinues⟩ := h.constrain label hArity hVars hHolds
  exact (hRest hContinues).after hContinues (Stateful.bind_of_ok hNext)

theorem compute {compute : Env p → Except Stop (Residue p)}
    (hValue : mode.hasWitness = true → compute state.env = .ok value) :
    Returns mode state w (Action.compute compute) value := by
  refine of_introduce h [value] (fun hWitness => ?_) fun hContinues hNew => ?_
  · rw [hValue hWitness]
    rfl
  · obtain ⟨hCovers, hNew⟩ := hNew 0 Nat.zero_lt_one
    exact ⟨_, _, _, rfl, .refl hContinues.toModelledBy, hCovers, hNew⟩

/-- A new variable with its value, and a constraint that this value satisfies. -/
theorem fresh {compute : Env p → Except Stop (Residue p)} (constraint : Expr p → Constraint p)
    {label : Option String} (hValue : mode.hasWitness = true → compute state.env = .ok value)
    (hArity : ∀ r, (constraint r).checkArity = .ok ())
    (hConstraint : ∀ {r next w'}, state.Continues mode w next w' → next.Covers r →
      r.value w' = value →
      (∀ x ∈ (constraint r).vars, next.Has x) ∧ (constraint r).Holds w') :
    Returns mode state w (do
      let result ← Action.compute compute
      Action.constrain (constraint result) label
      return result) value := by
  refine (Returns.compute h hValue).andThen fun {r next w'} hContinues hr hResult => ?_
  obtain ⟨hVars, hHolds⟩ := hConstraint hContinues hr hResult
  refine of_constrain hContinues.toModelledBy (hArity r) hVars hHolds fun hMore => ?_
  rw [← hResult]
  exact .ret hMore.toModelledBy (hMore.covers hr)

end Fresh

end Returns

end Action

namespace Gadget

variable {p : Nat} [Modulus p] [Fact p.Prime] {mode : Mode} {w : Nat → Residue p}
  {state : RunState p} {a b : Expr p}

open ArithCircuit.Action (Returns)

theorem mul_returns (h : state.ModelledBy mode w) (ha : state.Covers a) (hb : state.Covers b)
    (label : Option String) : Returns mode state w (mul a b label) (a.value w * b.value w) := by
  rcases mul_cases a b label state with ⟨e, hFolded, hVars, hValue⟩ | hFresh
  · exact ⟨e, state, w, hFolded, .refl h, ha.append hb hVars, hValue w⟩
  · rw [Returns, hFresh]
    refine Returns.fresh h (fun r => .product a b r) (fun hWitness => ?_) (fun _ => rfl)
      fun hContinues hr hValue => ⟨?_, ?_⟩
    · rw [h.peek_eq hWitness ha, h.peek_eq hWitness hb]
      rfl
    · exact (hContinues.covers ha).product (hContinues.covers hb) hr
    · rw [Constraint.Holds, hContinues.value_eq ha, hContinues.value_eq hb, hValue]

theorem square_returns (h : state.ModelledBy mode w) (ha : state.Covers a)
    (label : Option String) : Returns mode state w (square a label) (a.value w * a.value w) := by
  rcases square_cases a label state with ⟨e, hFolded, hVars, hValue⟩ | hFresh
  · exact ⟨e, state, w, hFolded, .refl h, ha.mono hVars, hValue w⟩
  · rw [Returns, hFresh]
    refine Returns.fresh h (fun r => .square a r) (fun hWitness => ?_) (fun _ => rfl)
      fun hContinues hr hValue => ⟨?_, ?_⟩
    · rw [h.peek_eq hWitness ha]
      rfl
    · exact List.forall_mem_append.mpr ⟨hContinues.covers ha, hr⟩
    · rw [Constraint.Holds, hContinues.value_eq ha, hValue]

theorem inv_returns (h : state.ModelledBy mode w) (ha : state.Covers a) (hNonzero : a.value w ≠ 0)
    (label : Option String) : Returns mode state w (inv a label) (a.value w)⁻¹ := by
  rcases inv_cases a label state with ⟨x, rfl, -, hFolded⟩ | ⟨rfl, -⟩ | hFresh
  · exact ⟨_, state, w, hFolded, .refl h, .const _, rfl⟩
  · exact absurd rfl hNonzero
  · rw [Returns, hFresh]
    refine Returns.fresh h (fun r => .product a r 1) (fun hWitness => ?_) (fun _ => rfl)
      fun hContinues hr hValue => ⟨?_, ?_⟩
    · simp only [h.peek_eq hWitness ha, bind, Except.bind, Residue.inv?, if_neg hNonzero]
      rfl
    · exact (hContinues.covers ha).product hr (.const 1)
    · rw [Constraint.Holds, hContinues.value_eq ha, hValue]
      exact mul_inv_cancel₀ hNonzero

theorem div_returns (h : state.ModelledBy mode w) (ha : state.Covers a) (hb : state.Covers b)
    (hNonzero : b.value w ≠ 0) (label : Option String) :
    Returns mode state w (div a b label) (a.value w / b.value w) := by
  refine (inv_returns h hb hNonzero label).andThen fun hContinues hr hValue => ?_
  have hProduct := mul_returns hContinues.toModelledBy (hContinues.covers ha) hr label
  rwa [hContinues.value_eq ha, hValue, ← div_eq_mul_inv] at hProduct

/-- The two constraints of a test for zero, with the intended result and inverse. -/
theorem zeroTest_returns (h : state.ModelledBy mode w) {z result inverse : Expr p}
    (hz : state.Covers z) (hResult : state.Covers result) (hInverse : state.Covers inverse)
    (hResultValue : result.value w = if z.value w = 0 then 1 else 0)
    (hInverseValue : inverse.value w = (z.value w)⁻¹) (first second : Option String) :
    Returns mode state w (do
      Action.constrain (.product inverse z (1 - result)) first
      Action.constrain (.product result z 0) second
      return result) (if z.value w = 0 then 1 else 0) := by
  refine Returns.of_constrain h rfl ?_ ?_ fun hFirst =>
    Returns.of_constrain hFirst.toModelledBy rfl ?_ ?_ fun hSecond => ?_
  · exact hInverse.product hz (Covers.append (.const 1) hResult (Expr.vars_sub_subset 1 result))
  · rw [Constraint.Holds, Expr.value_sub, hInverseValue, hResultValue, Expr.value_one]
    split_ifs with hZero
    · rw [hZero, mul_zero, sub_self]
    · rw [inv_mul_cancel₀ hZero, sub_zero]
  · exact (hFirst.covers hResult).product (hFirst.covers hz) (.const 0)
  · rw [Constraint.Holds, hResultValue, Expr.value_zero]
    split_ifs with hZero
    · rw [hZero, mul_zero]
    · rw [zero_mul]
  · rw [← hResultValue]
    exact .ret hSecond.toModelledBy (hSecond.covers (hFirst.covers hResult))

theorem isZero_returns {z : Expr p} (h : state.ModelledBy mode w) (hz : state.Covers z) :
    Returns mode state w (isZero z) (if z.value w = 0 then 1 else 0) := by
  refine Returns.of_introduce h [if z.value w = 0 then 1 else 0, (z.value w)⁻¹]
    (fun hWitness => ?_) fun hContinues hNew => ?_
  · simp only [h.peek_eq hWitness hz, bind, Except.bind, Residue.inv?]
    split_ifs with hZero
    · rw [hZero, GroupWithZero.inv_zero]
      rfl
    · rfl
  · obtain ⟨hResult, hResultValue⟩ := hNew 0 Nat.zero_lt_two
    obtain ⟨hInverse, hInverseValue⟩ := hNew 1 Nat.one_lt_two
    rw [← hContinues.value_eq hz] at hResultValue hInverseValue ⊢
    exact zeroTest_returns hContinues.toModelledBy (hContinues.covers hz) hResult hInverse
      hResultValue hInverseValue _ _

theorem equal_returns (h : state.ModelledBy mode w) (ha : state.Covers a) (hb : state.Covers b) :
    Returns mode state w (equal a b) (if a.value w = b.value w then 1 else 0) := by
  rcases equal_cases a b with ⟨x, y, rfl, rfl, hConst⟩ | hFresh
  · rw [hConst]
    show Returns mode state w (pure (if x = y then 1 else 0)) (if x = y then 1 else 0)
    by_cases hSame : x = y
    · rw [if_pos hSame, if_pos hSame]
      exact .ret h (.const 1)
    · rw [if_neg hSame, if_neg hSame]
      exact .ret h (.const 0)
  · rw [hFresh]
    have hResult := isZero_returns h (ha.append hb (Expr.vars_sub_subset a b))
    simp only [Expr.value_sub, sub_eq_zero] at hResult
    exact hResult

theorem select_returns {condition yes no : Expr p} (h : state.ModelledBy mode w)
    (hCondition : state.Covers condition) (hYes : state.Covers yes) (hNo : state.Covers no) :
    Returns mode state w (select condition yes no)
      (condition.value w * (yes.value w - no.value w) + no.value w) := by
  unfold select
  split_ifs with hOne hZero
  · rw [hOne, Expr.value_one, one_mul, sub_add_cancel]
    exact .ret h hYes
  · rw [hZero, Expr.value_zero, zero_mul, zero_add]
    exact .ret h hNo
  · refine (mul_returns h hCondition (hYes.append hNo (Expr.vars_sub_subset yes no))
      _).andThen fun hContinues hr hValue => ?_
    have hSum := Returns.ret hContinues.toModelledBy
      (hr.append (hContinues.covers hNo) (Expr.vars_add_subset _ no))
    rwa [Expr.value_add, hValue, hContinues.value_eq hNo, Expr.value_sub] at hSum

end Gadget

end ArithCircuit
