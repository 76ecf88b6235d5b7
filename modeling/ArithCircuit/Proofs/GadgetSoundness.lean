import ArithCircuit.Proofs.Reachable

/-! What gadgets guarantee about assignments. A call adds constraints, and after it the recording
says what it said before and these constraints. An assignment that satisfies them gives the result
of a gadget the value that the gadget stands for, whatever it gives to the variables that the
gadget introduces. -/
namespace ArithCircuit

namespace RunState

variable {p : Nat} [Modulus p] {mode : Mode} {start state next : RunState p}

/-- The assignment agrees with the classes and satisfies all that waits to be lowered. -/
def Admits (state : RunState p) (w : Nat → Residue p) : Prop :=
  state.table.Consistent w ∧
    ∀ recording ∈ state.recording, ∀ k ∈ recording.waiting.toList, k.Passes w

/-- A state that is reached by allocating variables and adding the listed constraints. -/
inductive Adds (start : RunState p) : List (Assertion p) → RunState p → Prop where
  | refl : Adds start [] start
  | alloc {added : List (Assertion p)} {state : RunState p} (prior : Adds start added state)
      (values : List (Option (Residue p))) : Adds start added (state.allocAll .alloc values).2
  | constrain {added : List (Assertion p)} {state next : RunState p} {assertion : Assertion p}
      (prior : Adds start added state)
      (h : Action.constrain assertion.constraint assertion.label state = (.ok (), next)) :
      Adds start (added ++ [assertion]) next

theorem Adds.trans {added more : List (Assertion p)} (h : start.Adds added state)
    (hMore : state.Adds more next) : start.Adds (added ++ more) next := by
  induction hMore with
  | refl => simpa only [List.append_nil] using h
  | alloc _ values ih => exact .alloc ih values
  | constrain _ hOk ih =>
      rw [← List.append_assoc]
      exact .constrain ih hOk

/-- A constraint that is added becomes one more condition, be it in the classes or as it waits. -/
theorem Live.constrain_admits [Fact p.Prime] (h : state.Live mode) (hRecords : mode.records = true)
    {assertion : Assertion p}
    (hOk : Action.constrain assertion.constraint assertion.label state = (.ok (), next))
    (w : Nat → Residue p) : next.Admits w ↔ state.Admits w ∧ assertion.Passes w := by
  obtain ⟨recording, hRecording⟩ := Option.isSome_iff_exists.mp (h.recording.trans hRecords)
  obtain ⟨-, -, -, hRecord⟩ := Action.constrain_eq_ok_iff.mp hOk
  rw [Action.record_of_some hRecording] at hRecord
  rcases recording.add_cases state.table assertion with
    ⟨stop, recording', hAdd, -⟩ | ⟨recording', table, hAdd, hWaiting, hAbsorb⟩ |
    ⟨recording', hAdd, hWaiting⟩
  · rw [hAdd] at hRecord
    cases hRecord
  · rw [hAdd] at hRecord
    cases hRecord
    have hTable := VariableTable.absorb_absorbed h.wellFormed hAbsorb
    simp only [Admits, hRecording, Option.mem_def, Option.some.injEq, forall_eq', hWaiting,
      hTable.consistent_iff, Assertion.passes_iff]
    tauto
  · rw [hAdd] at hRecord
    cases hRecord
    simp only [Admits, hRecording, Option.mem_def, Option.some.injEq, forall_eq', hWaiting,
      Array.toList_push, List.forall_mem_append, List.forall_mem_singleton, and_assoc]
    refine and_congr_right fun hw => and_congr_right fun _ => ?_
    rw [Assertion.passes_iff, Assertion.passes_iff]
    exact VariableTable.holds_offered_iff _ _ hw

theorem Live.alloc_admits (h : state.Live mode) (values : List (Option (Residue p)))
    (w : Nat → Residue p) : (state.allocAll .alloc values).2.Admits w ↔ state.Admits w :=
  and_congr_left' ((VariableTable.foldl_alloc_enlarges h.wellFormed values).consistent_iff w)

/-- What a recording says after constraints are added. -/
theorem Adds.admits [Fact p.Prime] {added : List (Assertion p)} (h : start.Adds added state)
    (hStart : start.Live mode) (hRecords : mode.records = true) :
    state.Live mode ∧ ∀ w, state.Admits w ↔ start.Admits w ∧ ∀ k ∈ added, k.Passes w := by
  induction h with
  | refl => exact ⟨hStart, by simp⟩
  | alloc _ values ih =>
      obtain ⟨hState, hAdmits⟩ := ih
      exact ⟨hState.alloc values,
        fun w => (hState.alloc_admits values w).trans (hAdmits w)⟩
  | @constrain added state next assertion _ hOk ih =>
      obtain ⟨hState, hAdmits⟩ := ih
      have hNext := hState.constrain assertion.constraint assertion.label
      rw [hOk] at hNext
      refine ⟨hNext, fun w => ?_⟩
      rw [hState.constrain_admits hRecords hOk, hAdmits, List.forall_mem_append,
        List.forall_mem_singleton, and_assoc]

end RunState

namespace Action

variable {p : Nat} [Modulus p] {α β : Type}

/-- When the operation succeeds, every assignment that satisfies the constraints that it adds gives
the result its meaning. -/
def Ensures (action : Action p α) (meaning : (Nat → Residue p) → α → Prop) : Prop :=
  ∀ state r next, action state = (.ok r, next) →
    ∃ added, state.Adds added next ∧ ∀ w, (∀ k ∈ added, k.Passes w) → meaning w r

namespace Ensures

variable {first : (Nat → Residue p) → α → Prop} {meaning : (Nat → Residue p) → β → Prop}

theorem ret {a : β} (h : ∀ w, meaning w a) : Ensures (pure a) meaning := by
  rintro state r next hResult
  cases hResult
  exact ⟨[], .refl, fun w _ => h w⟩

theorem refuse (fault : Fault) : Ensures (Stateful.refuse fault) meaning := by
  intro state r next hResult
  cases hResult

theorem imp {action : Action p β} {stronger : (Nat → Residue p) → β → Prop}
    (h : action.Ensures stronger) (hImp : ∀ w b, stronger w b → meaning w b) :
    action.Ensures meaning := by
  intro state b next hResult
  obtain ⟨added, hAdds, hMeaning⟩ := h state b next hResult
  exact ⟨added, hAdds, fun w hw => hImp w b (hMeaning w hw)⟩

/-- The continuation may rely on what the first operation ensures. -/
theorem andThen {action : Action p α} {next : α → Action p β} (h : action.Ensures first)
    (hNext : ∀ a, (next a).Ensures fun w b => first w a → meaning w b) :
    (action >>= next).Ensures meaning := by
  intro state b final hResult
  simp only [bind, Stateful.andThen] at hResult
  rcases hFirst : action state with ⟨_ | a, middle⟩
  · rw [hFirst] at hResult
    cases hResult
  · rw [hFirst] at hResult
    obtain ⟨added, hAdds, hMeaning⟩ := h state a middle hFirst
    obtain ⟨more, hMore, hRest⟩ := hNext a middle b final hResult
    refine ⟨added ++ more, hAdds.trans hMore, fun w hw => ?_⟩
    rw [List.forall_mem_append] at hw
    exact hRest w hw.2 (hMeaning w hw.1)

/-- Where constants are folded, nothing is added. -/
theorem of_folded {action fresh : Action p β} (hFresh : fresh.Ensures meaning)
    (h : ∀ state, (∃ result, action state = (result, state) ∧
      ∀ b, result = .ok b → ∀ w, meaning w b) ∨ action state = fresh state) :
    action.Ensures meaning := by
  intro state b next hResult
  rcases h state with ⟨result, hFolded, hMeaning⟩ | hSame
  · rw [hFolded] at hResult
    cases hResult
    exact ⟨[], .refl, fun w _ => hMeaning b rfl w⟩
  · rw [hSame] at hResult
    exact hFresh state b next hResult

theorem constrain (constraint : Constraint p) (label : Option String) :
    (Action.constrain constraint label).Ensures fun w _ => constraint.Holds w := by
  intro state r next hResult
  have hAdds : state.Adds ([] ++ [⟨label, constraint⟩]) next := .constrain .refl hResult
  refine ⟨_, hAdds, fun w hw => ?_⟩
  exact Assertion.passes_iff.mp (hw _ (List.mem_singleton_self _))

/-- New variables may have any value. -/
theorem introduce (count : Nat) (values : Env p → Except Stop (List (Residue p))) :
    (Action.introduce count values).Ensures fun _ _ => True := by
  intro state r next hResult
  have hAlloc (given : List (Option (Residue p)))
      (h : (Except.ok (state.allocAll .alloc given).1, (state.allocAll .alloc given).2) =
        ((.ok r, next) : Except Stop (List (Expr p)) × RunState p)) :
      ∃ added, state.Adds added next ∧ ∀ w, (∀ k ∈ added, k.Passes w) → True := by
    cases h
    exact ⟨[], .alloc .refl given, fun _ _ => trivial⟩
  simp only [Action.introduce, inMode] at hResult
  split_ifs at hResult with hIdle hWitness
  · cases hResult
  · split at hResult
    · cases hResult
    · split_ifs at hResult
      · cases hResult
      · exact hAlloc _ hResult
  · exact hAlloc _ hResult

theorem compute (value : Env p → Except Stop (Residue p)) :
    (Action.compute value).Ensures fun _ _ => True := by
  refine (introduce 1 _).andThen fun vars => ?_
  split
  · exact .ret fun _ _ => trivial
  · exact .refuse _

end Ensures

end Action

namespace Gadget

variable {p : Nat} [Modulus p]

/-- A product stays an expression over the variables of its factors, or becomes a new variable. -/
theorem mul_cases (a b : Expr p) (label : Option String) (state : RunState p) :
    (∃ e : Expr p, mul a b label state = (.ok e, state) ∧ e.vars ⊆ a.vars ++ b.vars ∧
      ∀ w, e.value w = a.value w * b.value w) ∨
    mul a b label state = freshProduct a b label state := by
  unfold mul
  split_ifs
  · split
    · exact .inl ⟨_, rfl, List.Subset.refl _, fun _ => rfl⟩
    · exact .inl ⟨_, rfl, (Expr.vars_scaleBy_sublist _ _).subset,
        fun w => Expr.value_scaleBy w _ _⟩
    · refine .inl ⟨_, rfl, fun i hi => List.mem_append_left _
        ((Expr.vars_scaleBy_sublist _ _).subset hi), fun w => ?_⟩
      rw [Expr.value_scaleBy]
      exact mul_comm _ _
    · exact .inr rfl
  · exact .inr rfl

theorem square_cases (a : Expr p) (label : Option String) (state : RunState p) :
    (∃ e : Expr p, square a label state = (.ok e, state) ∧ e.vars ⊆ a.vars ∧
      ∀ w, e.value w = a.value w * a.value w) ∨
    square a label state = freshSquare a label state := by
  unfold square
  split
  · split_ifs
    · exact .inl ⟨_, rfl, List.Subset.refl _, fun _ => rfl⟩
    · exact .inr rfl
  · exact .inr rfl

/-- The inverse of a constant stays a constant, unless there is none. -/
theorem inv_cases (a : Expr p) (label : Option String) (state : RunState p) :
    (∃ x : Residue p, a = .const x ∧ x ≠ 0 ∧ inv a label state = (.ok (.const x⁻¹), state)) ∨
    (a = .const 0 ∧ inv a label state = Stateful.refuse
      (.unsatisfied (some (label.getD "field_inv")) "0 * x = 1" []) state) ∨
    inv a label state = freshInverse a (label.getD "field_inv") state := by
  cases a with
  | const x =>
      simp only [inv, Residue.inv?]
      split_ifs with hFold hZero
      · exact .inr (.inl ⟨by rw [hZero], rfl⟩)
      · exact .inl ⟨x, rfl, hZero, rfl⟩
      · exact .inr (.inr rfl)
  | _ => exact .inr (.inr rfl)

theorem equal_cases (a b : Expr p) :
    (∃ x y : Residue p, a = .const x ∧ b = .const y ∧ equal a b = pure (if x = y then 1 else 0)) ∨
      equal a b = isZero (a - b) := by
  unfold equal
  split
  · exact .inl ⟨_, _, rfl, rfl, rfl⟩
  · exact .inr rfl

theorem mul_ensures (a b : Expr p) (label : Option String) :
    (mul a b label).Ensures fun w r => r.value w = a.value w * b.value w := by
  have hFresh : (freshProduct a b label).Ensures fun w r => r.value w = a.value w * b.value w :=
    (Action.Ensures.compute _).andThen fun _ => (Action.Ensures.constrain _ _).andThen fun _ =>
      .ret fun _ hHolds _ => hHolds.symm
  refine .of_folded hFresh fun state => (mul_cases a b label state).imp_left ?_
  rintro ⟨e, hFolded, -, hValue⟩
  refine ⟨_, hFolded, fun r hr => ?_⟩
  cases hr
  exact hValue

theorem square_ensures (a : Expr p) (label : Option String) :
    (square a label).Ensures fun w r => r.value w = a.value w * a.value w := by
  have hFresh : (freshSquare a label).Ensures fun w r => r.value w = a.value w * a.value w :=
    (Action.Ensures.compute _).andThen fun _ => (Action.Ensures.constrain _ _).andThen fun _ =>
      .ret fun _ hHolds _ => hHolds.symm
  refine .of_folded hFresh fun state => (square_cases a label state).imp_left ?_
  rintro ⟨e, hFolded, -, hValue⟩
  refine ⟨_, hFolded, fun r hr => ?_⟩
  cases hr
  exact hValue

variable [Fact p.Prime]

theorem inv_ensures (a : Expr p) (label : Option String) :
    (inv a label).Ensures fun w r => r.value w * a.value w = 1 := by
  have hFresh : (freshInverse a (label.getD "field_inv")).Ensures
      fun w r => r.value w * a.value w = 1 :=
    (Action.Ensures.compute _).andThen fun _ => (Action.Ensures.constrain _ _).andThen fun _ =>
      .ret fun _ hHolds _ => (mul_comm _ _).trans hHolds
  refine .of_folded hFresh fun state => ?_
  rcases inv_cases a label state with ⟨x, rfl, hx, hFolded⟩ | ⟨-, hRefused⟩ | hSame
  · refine .inl ⟨_, hFolded, fun r hr w => ?_⟩
    cases hr
    exact inv_mul_cancel₀ hx
  · exact .inl ⟨_, hRefused, nofun⟩
  · exact .inr hSame

theorem div_ensures (a b : Expr p) (label : Option String) :
    (div a b label).Ensures fun w r => r.value w * b.value w = a.value w ∧ b.value w ≠ 0 := by
  refine (inv_ensures b label).andThen fun inverse => (mul_ensures a inverse label).imp ?_
  intro w r hProduct hInverse
  refine ⟨?_, right_ne_zero_of_mul_eq_one hInverse⟩
  rw [hProduct, mul_assoc, hInverse, mul_one]

/-- The two constraints leave only one choice for the result, whatever stands for the inverse. -/
theorem isZero_ensures (z : Expr p) :
    (isZero z).Ensures fun w r => r.value w = if z.value w = 0 then 1 else 0 := by
  refine (Action.Ensures.introduce 2 _).andThen fun vars => ?_
  split
  · rename_i result inverse
    refine (Action.Ensures.constrain _ _).andThen fun _ => (Action.Ensures.constrain _ _).andThen
      fun _ => .ret fun w hSecond hFirst _ => ?_
    simp only [Constraint.Holds, Expr.value_sub, Expr.value_one, Expr.value_zero] at hFirst hSecond
    -- for a zero operand the first constraint fixes the result, and otherwise the second does
    split_ifs with hz
    · rw [hz, mul_zero] at hFirst
      exact (sub_eq_zero.mp hFirst.symm).symm
    · exact (mul_eq_zero.mp hSecond).resolve_right hz
  · exact .refuse _

theorem equal_ensures (a b : Expr p) :
    (equal a b).Ensures fun w r => r.value w = if a.value w = b.value w then 1 else 0 := by
  rcases equal_cases a b with ⟨x, y, rfl, rfl, hConst⟩ | hFresh
  · rw [hConst]
    refine .ret fun w => ?_
    rw [apply_ite (Expr.value w)]
    rfl
  · rw [hFresh]
    refine (isZero_ensures (a - b)).imp fun w r hResult => ?_
    rw [hResult, Expr.value_sub]
    simp only [sub_eq_zero]

theorem select_ensures (condition yes no : Expr p) : (select condition yes no).Ensures fun w r =>
    r.value w = condition.value w * (yes.value w - no.value w) + no.value w := by
  unfold select
  split_ifs with hOne hZero
  · refine .ret fun w => ?_
    rw [hOne, Expr.value_one]
    ring
  · refine .ret fun w => ?_
    rw [hZero, Expr.value_zero]
    ring
  · refine (mul_ensures condition (yes - no) _).andThen fun selected => .ret fun w hSelected => ?_
    rw [Expr.value_add, hSelected, Expr.value_sub]

end Gadget

end ArithCircuit
