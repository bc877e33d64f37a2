import Mathlib.Data.List.Forall2

/-! Results of steps that may fail: when steps after one another have a result, and when the steps
for the members of a list have. -/

namespace FormatterPlan

variable {ε ε' α β : Type}

theorem bind_eq_ok_iff {x : Except ε α} {f : α → Except ε β} {b : β} :
    (x >>= f) = .ok b ↔ ∃ a, x = .ok a ∧ f a = .ok b := by
  cases x <;> simp [bind, Except.bind]

theorem map_eq_ok_iff {x : Except ε α} {f : α → β} {b : β} :
    (f <$> x) = .ok b ↔ ∃ a, x = .ok a ∧ f a = b := by
  cases x <;> simp [Functor.map, Except.map]

theorem mapError_eq_ok_iff {x : Except ε α} {f : ε → ε'} {a : α} :
    x.mapError f = .ok a ↔ x = .ok a := by
  cases x <;> simp [Except.mapError]

theorem toOption_eq_some_iff {x : Except ε α} {a : α} :
    x.toOption = some a ↔ x = .ok a := by
  cases x <;> simp [Except.toOption]

/-! ### Lists -/

/-- A list is processed when each of its members is. -/
theorem mapM_eq_ok_iff {f : α → Except ε β} {xs : List α} {ys : List β} :
    xs.mapM f = .ok ys ↔ List.Forall₂ (fun x y => f x = .ok y) xs ys := by
  induction xs generalizing ys with
  | nil => simp [pure, Except.pure, eq_comm]
  | cons x xs ih =>
    rw [List.mapM_cons, List.forall₂_cons_left_iff]
    simp only [bind_eq_ok_iff, ih, pure, Except.pure, Except.ok.injEq]
    constructor
    · rintro ⟨y, hy, ys', hys, rfl⟩
      exact ⟨y, ys', hy, hys, rfl⟩
    · rintro ⟨y, ys', hy, hys, rfl⟩
      exact ⟨y, hy, ys', hys, rfl⟩

theorem mapM_append_eq_ok {f : α → Except ε β} {g : α → β} {xs ys : List α}
    {zs : List β} (hxs : ∀ x ∈ xs, f x = .ok (g x)) (hys : ys.mapM f = .ok zs) :
    (xs ++ ys).mapM f = .ok (xs.map g ++ zs) := by
  rw [mapM_eq_ok_iff] at hys ⊢
  refine List.rel_append ?_ hys
  rw [List.forall₂_map_right_iff, List.forall₂_same]
  exact hxs

/-- What holds of all results of a list holds when it holds of the result of each member. -/
theorem forall_of_mapM {f : α → Except ε β} {xs : List α} {ys : List β}
    {P : β → Prop} (h : xs.mapM f = .ok ys) (hP : ∀ x ∈ xs, ∀ y, f x = .ok y → P y) :
    ∀ y ∈ ys, P y := by
  intro y hy
  obtain ⟨i, hi, rfl⟩ := List.getElem_of_mem hy
  have hall := mapM_eq_ok_iff.mp h
  have hi' : i < xs.length := by rw [hall.length_eq]; exact hi
  exact hP _ (List.getElem_mem hi') _ (hall.get hi' hi)

/-- Each member of a list has a result among those of the list. -/
theorem exists_of_mapM {f : α → Except ε β} {xs : List α} {ys : List β}
    (h : xs.mapM f = .ok ys) {x : α} (hx : x ∈ xs) : ∃ y ∈ ys, f x = .ok y := by
  obtain ⟨i, hi, rfl⟩ := List.getElem_of_mem hx
  have hall := mapM_eq_ok_iff.mp h
  have hi' : i < ys.length := by rw [← hall.length_eq]; exact hi
  exact ⟨_, List.getElem_mem hi', hall.get hi hi'⟩

theorem exists_mapM_eq_ok {f : α → Except ε β} {xs : List α}
    (h : ∀ x ∈ xs, ∃ y, f x = .ok y) : ∃ ys, xs.mapM f = .ok ys := by
  induction xs with
  | nil => exact ⟨[], rfl⟩
  | cons x xs ih =>
    obtain ⟨y, hy⟩ := h x List.mem_cons_self
    obtain ⟨ys, hys⟩ := ih fun x hx => h x (List.mem_cons_of_mem _ hx)
    rw [mapM_eq_ok_iff] at hys
    exact ⟨y :: ys, mapM_eq_ok_iff.mpr (.cons hy hys)⟩

theorem getElem?_of_mapM {f : α → Except ε β} {xs : List α} {ys : List β}
    (h : xs.mapM f = .ok ys) (i : Nat) : ys[i]? = xs[i]?.bind fun x => (f x).toOption := by
  have hall := mapM_eq_ok_iff.mp h
  by_cases hi : i < xs.length
  · have hi' : i < ys.length := by rw [← hall.length_eq]; exact hi
    have hget : f xs[i] = .ok ys[i] := hall.get hi hi'
    rw [List.getElem?_eq_getElem hi, List.getElem?_eq_getElem hi', Option.bind_some, hget]
    rfl
  · have hi' : ¬ i < ys.length := by rw [← hall.length_eq]; exact hi
    rw [List.getElem?_eq_none (by omega), List.getElem?_eq_none (by omega)]
    rfl

theorem option_mapM_ok {f : α → Except ε β} {x : Option α} {y : Option β}
    (h : x.mapM f = .ok y) : ∀ b ∈ y, ∃ a, x = some a ∧ f a = .ok b := by
  cases x with
  | none =>
    rintro b rfl
    simp [pure, Except.pure] at h
  | some a =>
    rintro b rfl
    simp only [Option.mapM_some, map_eq_ok_iff, Option.some.injEq, exists_eq_right] at h
    exact ⟨a, rfl, h⟩

end FormatterPlan
