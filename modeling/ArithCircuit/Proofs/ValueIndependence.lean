import ArithCircuit.Proofs.Alike

/-! Recording and lowering do not look at values. With other values in the table, the same
assertions are absorbed, kept and refused, and the table ends with the same classes. A recording is
finished to the same circuit, which depends on the values only through their number. -/
namespace ArithCircuit

namespace VariableTable

variable {p : Nat} [Modulus p]

/-- The table with other values. -/
def withValues (table : VariableTable p) (values : Array (Option (Residue p))) : VariableTable p :=
  { table with values := values }

theorem unify_withValues (table : VariableTable p) (values : Array (Option (Residue p)))
    (form : LinearForm p) (policy : Unification) (label : Option String) :
    (table.withValues values).unify form policy label =
      (table.unify form policy label).map (Option.map (·.withValues values)) := by
  have hPin (root : Nat) (value : Residue p) :
      ((table.withValues values).compress form).pin root value =
        (((table.compress form).pin root value).map (·.withValues values)) := by
    simp only [pin, compress, withValues]
    split <;> rfl
  have hLink (child parent : Nat) (coeff offset : Residue p) :
      ((table.withValues values).compress form).link child parent coeff offset =
        (((table.compress form).link child parent coeff offset).map (·.withValues values)) := by
    simp only [link, compress, withValues]
    split <;> rfl
  have hMap (result : Except Stop (VariableTable p)) :
      (result.map (·.withValues values)).map some =
        (result.map some).map (Option.map (·.withValues values)) := by
    cases result <;> rfl
  have hResolve : (table.withValues values).resolve form = table.resolve form := rfl
  have hPublic (x : Nat) : (table.withValues values).isPublic x = table.isPublic x := rfl
  simp only [unify, hResolve, hPublic, hPin, hLink]
  generalize (table.resolve form).normalize = resolved
  obtain ⟨terms, constant⟩ := resolved
  by_cases hOff : policy = .off
  · rw [if_pos hOff, if_pos hOff]
    rfl
  rw [if_neg hOff, if_neg hOff]
  rcases terms with _ | ⟨⟨c, u⟩, _ | ⟨⟨c', v⟩, _ | ⟨third, rest⟩⟩⟩
  · by_cases hZero : constant = 0
    · simp only [if_pos hZero]
      rfl
    · simp only [if_neg hZero]
      rfl
  · dsimp only
    split_ifs
    · rfl
    · exact hMap _
  · dsimp only
    split_ifs
    · rfl
    · exact hMap _
  · rfl

theorem absorb_withValues (table : VariableTable p) (values : Array (Option (Residue p)))
    (settings : Settings) (assertion : Assertion p) :
    (table.withValues values).absorb settings assertion =
      match table.absorb settings assertion with
      | .ok (.absorbed next) => .ok (.absorbed (next.withValues values))
      | result => result := by
  have hLinearize (c : Constraint p) : (table.withValues values).linearize c = table.linearize c :=
    rfl
  simp only [absorb, hLinearize, unify_withValues]
  generalize (if settings.foldConstants = true then table.linearize assertion.constraint
    else assertion.constraint) = offered
  cases offered with
  | equal a b =>
      dsimp only
      rcases table.unify (a.linear - b.linear) settings.unification assertion.label with
        stop | _ | next
      · rfl
      · rfl
      · rfl
  | _ => rfl

theorem absorbAll_withValues (table : VariableTable p) (values : Array (Option (Residue p)))
    (settings : Settings) (assertions : List (Assertion p)) :
    (table.withValues values).absorbAll settings assertions =
      ((table.absorbAll settings assertions).1,
        (table.absorbAll settings assertions).2.withValues values) := by
  induction assertions generalizing table with
  | nil => rfl
  | cons assertion rest ih =>
      simp only [absorbAll, absorb_withValues]
      rcases table.absorb settings assertion with stop | next | kept
      · rfl
      · simp only [ih]
      · simp only [ih]

/-- Unification changes the classes only. -/
theorem unify_frame {table next : VariableTable p} {form : LinearForm p} {policy : Unification}
    {label : Option String} (h : table.unify form policy label = .ok (some next)) :
    next.values = table.values ∧ next.publicCount = table.publicCount := by
  have hPin {root : Nat} {value : Residue p}
      (h : ((table.compress form).pin root value).map some = .ok (some next)) :
      next.values = table.values ∧ next.publicCount = table.publicCount := by
    rw [pin] at h
    split at h
    · cases h
      exact ⟨rfl, rfl⟩
    · cases h
  have hLink {child parent : Nat} {coeff offset : Residue p}
      (h : ((table.compress form).link child parent coeff offset).map some = .ok (some next)) :
      next.values = table.values ∧ next.publicCount = table.publicCount := by
    rw [link] at h
    split at h
    · cases h
      exact ⟨rfl, rfl⟩
    · cases h
  rw [unify] at h
  split_ifs at h
  · cases h
  dsimp only at h
  split at h
  · split_ifs at h
    cases h
    exact ⟨rfl, rfl⟩
  · split_ifs at h
    · cases h
    · exact hPin h
  · split_ifs at h
    · cases h
    · exact hLink h
  · cases h

theorem absorb_frame {table next : VariableTable p} {settings : Settings} {assertion : Assertion p}
    (h : table.absorb settings assertion = .ok (.absorbed next)) :
    next.values = table.values ∧ next.publicCount = table.publicCount := by
  rcases absorb_cases table settings assertion with
    ⟨a, b, -, ⟨stop, -, hAbsorb⟩ | ⟨next', hUnify, hAbsorb⟩⟩ | hAbsorb
  · rw [hAbsorb] at h
    cases h
  · rw [hAbsorb] at h
    cases h
    exact unify_frame hUnify
  · rw [hAbsorb] at h
    cases h

/-- The classes absorb assertions, the values stay. -/
theorem absorbAll_values (table : VariableTable p) (settings : Settings)
    (assertions : List (Assertion p)) :
    (table.absorbAll settings assertions).2.values = table.values := by
  have hSame := congrArg (·.2.values) (table.absorbAll_withValues table.values settings assertions)
  exact hSame

end VariableTable

namespace Recording

variable {p : Nat} [Modulus p]

theorem add_withValues (recording : Recording p) (table : VariableTable p)
    (values : Array (Option (Residue p))) (assertion : Assertion p) :
    recording.add (table.withValues values) assertion =
      ((recording.add table assertion).1, (recording.add table assertion).2.1,
        (recording.add table assertion).2.2.withValues values) := by
  obtain ⟨settings, waiting, recorded, unified⟩ := recording
  simp only [add, VariableTable.absorb_withValues]
  cases assertion.constraint.checkArity with
  | error fault => rfl
  | ok _ => rcases table.absorb settings assertion with stop | next | kept <;> rfl

/-- Recording changes neither the settings nor the values. -/
theorem add_frame (recording : Recording p) (table : VariableTable p) (assertion : Assertion p) :
    (recording.add table assertion).2.1.settings = recording.settings ∧
      (recording.add table assertion).2.2.values = table.values ∧
      (recording.add table assertion).2.2.publicCount = table.publicCount := by
  obtain ⟨settings, waiting, recorded, unified⟩ := recording
  simp only [add]
  cases assertion.constraint.checkArity with
  | error fault => exact ⟨rfl, rfl, rfl⟩
  | ok _ =>
      rcases hAbsorb : table.absorb settings assertion with stop | next | kept
      · exact ⟨rfl, rfl, rfl⟩
      · exact ⟨rfl, VariableTable.absorb_frame hAbsorb⟩
      · exact ⟨rfl, rfl, rfl⟩

/-- A recording becomes the same circuit over as many other values. -/
theorem finalize_withValues {recording : Recording p} {table final : VariableTable p}
    {values : Array (Option (Residue p))} (hSize : values.size = table.size) {circuit : Circuit p}
    (h : recording.finalize table = (.ok circuit, final)) :
    recording.finalize (table.withValues values) = (.ok circuit, final.withValues values) := by
  obtain ⟨waiting, unified, hAbsorb, hAssemble⟩ := finalize_eq_ok_iff.mp h
  have hValues := table.absorbAll_values recording.settings recording.waiting.toList
  rw [hAbsorb] at hValues
  have hAlike : final.ResolvesAlike recording.settings.normalizeOperands
      (final.withValues values) Eq :=
    ⟨by rintro e _ rfl; rfl, by rintro a _ b _ rfl rfl; rfl, rfl⟩
  have hFinalSize : final.size = (final.withValues values).size :=
    (congrArg Array.size hValues).trans hSize.symm
  have hSame : List.Forall₂ (Assertion.Alike Eq) waiting waiting :=
    List.forall₂_same.mpr fun k _ => .refl k.constraint
  refine finalize_eq_ok_iff.mpr ⟨waiting, unified, ?_,
    (assemble_eq_ok_congr rfl rfl hAlike hFinalSize rfl hSame _ circuit).mp hAssemble⟩
  rw [VariableTable.absorbAll_withValues, hAbsorb]

end Recording

end ArithCircuit
