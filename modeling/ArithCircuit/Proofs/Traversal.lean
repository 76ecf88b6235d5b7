import Mathlib.Data.List.Forall2

/-! Computations that may be refused, in sequence. A traversal returns exactly when each of its
steps does, and a refusal comes from one of them. -/
namespace ArithCircuit.Traversal

variable {α β γ ε : Type}

/-- A computation that returns has returned from its first part. -/
theorem exists_of_bind_eq_ok {first : Except ε α} {next : α → Except ε β} {result : β}
    (h : first >>= next = .ok result) : ∃ a, first = .ok a ∧ next a = .ok result := by
  cases first with
  | error stop => cases h
  | ok a => exact ⟨a, rfl, h⟩

/-- A computation is refused by one of its parts. -/
theorem cases_of_bind_eq_error {first : Except ε α} {next : α → Except ε β} {stop : ε}
    (h : first >>= next = .error stop) :
    first = .error stop ∨ ∃ a, first = .ok a ∧ next a = .error stop := by
  cases first with
  | error stop' => exact .inl (congrArg Except.error (Except.error.inj h))
  | ok a => exact .inr ⟨a, rfl, h⟩

variable {f : α → Except ε β}

theorem mapM_eq_ok_iff {xs : List α} {ys : List β} :
    xs.mapM f = .ok ys ↔ List.Forall₂ (fun x y => f x = .ok y) xs ys := by
  induction xs generalizing ys with
  | nil =>
      rw [List.mapM_nil, List.forall₂_nil_left_iff]
      exact ⟨fun h => (Except.ok.inj h).symm, fun h => congrArg Except.ok h.symm⟩
  | cons x rest ih =>
      rw [List.mapM_cons, List.forall₂_cons_left_iff]
      constructor
      · intro h
        obtain ⟨y, hy, h⟩ := exists_of_bind_eq_ok h
        obtain ⟨tail, hTail, h⟩ := exists_of_bind_eq_ok h
        exact ⟨y, tail, hy, ih.mp hTail, (Except.ok.inj h).symm⟩
      · rintro ⟨y, tail, hy, hTail, rfl⟩
        rw [hy, ih.mpr hTail]
        rfl

/-- What stands at one place of two related lists. -/
theorem getElem?_of_forall₂ {R : α → β → Prop} {xs : List α} {ys : List β}
    (h : List.Forall₂ R xs ys) {i : Nat} {y : β} (hy : ys[i]? = some y) :
    ∃ x, xs[i]? = some x ∧ R x y := by
  induction h generalizing i with
  | nil => simp at hy
  | cons hHead _ ih =>
      cases i with
      | zero =>
          obtain rfl := Option.some.inj hy
          exact ⟨_, rfl, hHead⟩
      | succ i => exact ih hy

/-- Lists related one after the other, through the members of the list between them. -/
theorem forall₂_comp {R : α → β → Prop} {S : β → γ → Prop} {xs : List α} {ys : List β}
    {zs : List γ} (h : List.Forall₂ R xs ys) (h' : List.Forall₂ S ys zs) :
    List.Forall₂ (fun x z => ∃ y ∈ ys, R x y ∧ S y z) xs zs := by
  induction h generalizing zs with
  | nil =>
      cases h'
      exact .nil
  | cons hHead _ ih =>
      cases h' with
      | cons hHead' hTail =>
          refine .cons ⟨_, List.mem_cons_self, hHead, hHead'⟩ ((ih hTail).imp ?_)
          rintro x z ⟨y, hMem, hBoth⟩
          exact ⟨y, List.mem_cons_of_mem _ hMem, hBoth⟩

theorem mapM_eq_map {g : α → β} {xs : List α} (h : ∀ x ∈ xs, f x = .ok (g x)) :
    xs.mapM f = .ok (xs.map g) := by
  rw [mapM_eq_ok_iff, List.forall₂_map_right_iff, List.forall₂_same]
  exact h

theorem exists_of_mapM_eq_ok {xs : List α} {ys : List β} (h : xs.mapM f = .ok ys) :
    ∀ x ∈ xs, ∃ y, f x = .ok y := by
  intro x hx
  obtain ⟨i, hi⟩ := List.mem_iff_getElem?.mp hx
  obtain ⟨y, -, hy⟩ := getElem?_of_forall₂ (mapM_eq_ok_iff.mp h).flip hi
  exact ⟨y, hy⟩

/-- A refused traversal was refused at one of its elements. -/
theorem exists_of_mapM_eq_error {xs : List α} {stop : ε} (h : xs.mapM f = .error stop) :
    ∃ x ∈ xs, f x = .error stop := by
  induction xs with
  | nil => cases h
  | cons x rest ih =>
      rw [List.mapM_cons] at h
      rcases cases_of_bind_eq_error h with hHead | ⟨y, -, h⟩
      · exact ⟨x, List.mem_cons_self, hHead⟩
      · rcases cases_of_bind_eq_error h with hTail | ⟨tail, -, h⟩
        · obtain ⟨x', hx', hStop⟩ := ih hTail
          exact ⟨x', List.mem_cons_of_mem _ hx', hStop⟩
        · cases h

theorem exists_of_mem_right {R : α → β → Prop} {xs : List α} {ys : List β}
    (h : List.Forall₂ R xs ys) {y : β} (hy : y ∈ ys) : ∃ x ∈ xs, R x y := by
  obtain ⟨i, hi⟩ := List.mem_iff_getElem?.mp hy
  obtain ⟨x, hx, hxy⟩ := getElem?_of_forall₂ h hi
  exact ⟨x, List.mem_of_getElem? hx, hxy⟩

/-- Checks in sequence pass exactly when each of them does. -/
theorem forM_eq_ok_iff {check : α → Except ε Unit} {xs : List α} :
    xs.forM check = .ok () ↔ ∀ x ∈ xs, check x = .ok () := by
  induction xs with
  | nil => exact ⟨fun _ _ hx => absurd hx List.not_mem_nil, fun _ => rfl⟩
  | cons x rest ih =>
      rw [List.forall_mem_cons]
      show (check x >>= fun _ => rest.forM check) = .ok () ↔ _
      constructor
      · intro h
        obtain ⟨_, hHead, hRest⟩ := exists_of_bind_eq_ok h
        exact ⟨hHead, ih.mp hRest⟩
      · rintro ⟨hHead, hRest⟩
        rw [hHead]
        exact ih.mpr hRest

theorem mapM_eq_some_map {f : α → Option β} {g : α → β} {xs : List α}
    (h : ∀ x ∈ xs, f x = some (g x)) : xs.mapM f = some (xs.map g) := by
  induction xs with
  | nil => rfl
  | cons x rest ih =>
      rw [List.mapM_cons, h x List.mem_cons_self,
        ih fun y hy => h y (List.mem_cons_of_mem _ hy)]
      rfl

/-- What is read back one by one is read back as a list. -/
theorem mapM_map_of_leftInverse {write : α → β} {read? : β → Option α}
    (h : ∀ x, read? (write x) = some x) (xs : List α) : (xs.map write).mapM read? = some xs := by
  have hAll : xs.mapM (read? ∘ write) = some (xs.map id) := mapM_eq_some_map fun x _ => h x
  rw [List.mapM_map, hAll, List.map_id]

theorem vector_mapM_eq_map {n : Nat} {g : α → β} {xs : Vector α n}
    (h : ∀ x ∈ xs.toList, f x = .ok (g x)) : xs.mapM f = .ok (xs.map g) := by
  have hList : xs.toArray.toList.mapM f = .ok (xs.toArray.toList.map g) := mapM_eq_map h
  have hArray : Vector.toArray <$> xs.mapM f = .ok (xs.map g).toArray := by
    rw [Vector.toArray_mapM, Array.mapM_eq_mapM_toList, hList]
    exact congrArg Except.ok (by simp [← Array.toList_map])
  cases hResult : xs.mapM f with
  | error stop =>
      rw [hResult] at hArray
      cases hArray
  | ok ys =>
      rw [hResult] at hArray
      exact congrArg Except.ok (Vector.toArray_inj.mp (Except.ok.inj hArray))

theorem exists_of_vector_mapM_eq_error {n : Nat} {xs : Vector α n} {stop : ε}
    (h : xs.mapM f = .error stop) : ∃ x ∈ xs.toList, f x = .error stop := by
  have hArray : Vector.toArray <$> xs.mapM f = .error stop := by rw [h]; rfl
  rw [Vector.toArray_mapM, Array.mapM_eq_mapM_toList] at hArray
  cases hList : xs.toArray.toList.mapM f with
  | error stop' =>
      rw [hList] at hArray
      obtain rfl := Except.error.inj hArray
      exact exists_of_mapM_eq_error hList
  | ok ys =>
      rw [hList] at hArray
      cases hArray

/-- A traversal looks at the elements only. -/
theorem mapM_congr {g : α → Except ε β} {xs : List α} (h : ∀ x ∈ xs, f x = g x) :
    xs.mapM f = xs.mapM g := by
  induction xs with
  | nil => rfl
  | cons x xs ih =>
      obtain ⟨hFirst, hRest⟩ := List.forall_mem_cons.mp h
      rw [List.mapM_cons, List.mapM_cons, hFirst, ih hRest]

theorem vector_mapM_congr {n : Nat} {g : α → Except ε β} {xs : Vector α n}
    (h : ∀ x ∈ xs.toList, f x = g x) : xs.mapM f = xs.mapM g := by
  have hArray : Vector.toArray <$> xs.mapM f = Vector.toArray <$> xs.mapM g := by
    rw [Vector.toArray_mapM, Vector.toArray_mapM, Array.mapM_eq_mapM_toList,
      Array.mapM_eq_mapM_toList]
    exact congrArg (List.toArray <$> ·) (mapM_congr h)
  rcases hLeft : xs.mapM f with stop | ys <;> rcases hRight : xs.mapM g with stop' | ys' <;>
    rw [hLeft, hRight] at hArray
  · exact congrArg Except.error (Except.error.inj hArray)
  · cases hArray
  · cases hArray
  · exact congrArg Except.ok (Vector.toArray_inj.mp (Except.ok.inj hArray))

end ArithCircuit.Traversal
