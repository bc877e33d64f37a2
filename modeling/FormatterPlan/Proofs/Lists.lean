import Mathlib.Data.List.Forall2
import Mathlib.Data.List.Nodup
import Mathlib.Logic.Equiv.Basic

/-! Facts about lists.  A list without its repetitions, or without the members that repeat the one
before them; lists side by side; lists in order, and in another order; and lists that start with
another one. -/

namespace FormatterPlan

variable {α β γ : Type}

/-! ### First occurrences -/

section

variable [BEq α] [LawfulBEq α] [BEq β] [LawfulBEq β]

omit [LawfulBEq α] in
/-- Induction along `eraseDups`: the rest of a list is taken without its first member. -/
theorem eraseDups_induction {P : List α → Prop} (hnil : P [])
    (hcons : ∀ x xs, P (xs.filter fun y => !y == x) → P (x :: xs)) (xs : List α) : P xs := by
  induction xs using WellFounded.induction (measure List.length).wf with
  | _ xs ih =>
    cases xs with
    | nil => exact hnil
    | cons x xs => exact hcons x xs (ih _ (Nat.lt_succ_of_le (List.length_filter_le _ _)))

omit [LawfulBEq α] in
theorem eraseDups_eq_nil_iff {xs : List α} : xs.eraseDups = [] ↔ xs = [] := by
  cases xs with
  | nil => simp
  | cons x xs => simp [List.eraseDups_cons]

theorem nodup_eraseDups (xs : List α) : xs.eraseDups.Nodup := by
  induction xs using eraseDups_induction with
  | hnil => simp
  | hcons x xs ih =>
    rw [List.eraseDups_cons, List.nodup_cons]
    refine ⟨fun hx => ?_, ih⟩
    rw [List.mem_eraseDups, List.mem_filter] at hx
    simp at hx

theorem eraseDups_filter (p : α → Bool) (xs : List α) :
    (xs.filter p).eraseDups = xs.eraseDups.filter p := by
  induction xs using eraseDups_induction with
  | hnil => rfl
  | hcons x xs ih =>
    rw [List.eraseDups_cons]
    by_cases hx : p x = true
    · rw [List.filter_cons_of_pos hx, List.eraseDups_cons, List.filter_cons_of_pos hx, ← ih,
        List.filter_comm]
    · rw [List.filter_cons_of_neg hx, List.filter_cons_of_neg hx, ← ih, List.filter_filter]
      congr 1
      refine List.filter_congr fun y _ => ?_
      by_cases hyx : y = x
      · simp [hyx, hx]
      · simp [hyx]

theorem eraseDups_of_nodup {xs : List α} (h : xs.Nodup) : xs.eraseDups = xs := by
  induction xs with
  | nil => rfl
  | cons x xs ih =>
    obtain ⟨hx, hxs⟩ := List.nodup_cons.mp h
    have hkept : (xs.filter fun y => !y == x) = xs := by
      refine List.filter_eq_self.mpr fun y hy => ?_
      have hne : y ≠ x := fun heq => hx (heq ▸ hy)
      simp [hne]
    rw [List.eraseDups_cons, hkept, ih hxs]

/-- Repetitions that are dropped before a map would be dropped after it. -/
theorem eraseDups_map_eraseDups (f : α → β) (xs : List α) :
    (xs.eraseDups.map f).eraseDups = (xs.map f).eraseDups := by
  induction xs using eraseDups_induction with
  | hnil => rfl
  | hcons x xs ih =>
    -- Members that equal `x` are mapped to `f x`, which the outer filter drops anyway.
    rw [List.eraseDups_cons, List.map_cons, List.eraseDups_cons, List.map_cons,
      List.eraseDups_cons, eraseDups_filter, ih, ← eraseDups_filter, List.filter_map,
      List.filter_map, List.filter_filter]
    congr 3
    refine List.filter_congr fun y _ => ?_
    by_cases hyx : y = x
    · simp [hyx]
    · simp [hyx]

theorem eraseDups_map_of_injOn {f : α → β} {xs : List α}
    (hf : ∀ x ∈ xs, ∀ y ∈ xs, f x = f y → x = y) : (xs.map f).eraseDups = xs.eraseDups.map f := by
  rw [← eraseDups_map_eraseDups]
  refine eraseDups_of_nodup (List.Nodup.map_on (fun x hx y hy => ?_) (nodup_eraseDups xs))
  exact hf x (List.mem_eraseDups.mp hx) y (List.mem_eraseDups.mp hy)

omit [LawfulBEq α] [BEq α] in
/-- Repetitions may be dropped part by part first. -/
theorem eraseDups_flatMap_eraseDups (f : α → List β) (xs : List α) :
    (xs.flatMap fun x => (f x).eraseDups).eraseDups = (xs.flatMap f).eraseDups := by
  induction xs with
  | nil => rfl
  | cons x xs ih =>
    have hremove : ∀ ys : List β, ys.removeAll (f x).eraseDups = ys.removeAll (f x) := by
      intro ys
      refine List.filter_congr fun y _ => ?_
      congr 1
      rw [Bool.eq_iff_iff, List.elem_iff, List.elem_iff, List.mem_eraseDups]
    rw [List.flatMap_cons, List.flatMap_cons, List.eraseDups_append, List.eraseDups_append, hremove,
      eraseDups_of_nodup (nodup_eraseDups (f x)), List.removeAll, List.removeAll, eraseDups_filter,
      eraseDups_filter, ih]

end

/-! ### Neighbours that repeat -/

section

variable [BEq α] [LawfulBEq α]

theorem mem_eraseReps_loop_iff {x previous : α}
    {xs before : List α} : x ∈ List.eraseRepsBy.loop (· == ·) previous xs before ↔
      x ∈ before ∨ x = previous ∨ x ∈ xs := by
  induction xs generalizing previous before with
  | nil => simp [List.eraseRepsBy.loop]
  | cons y ys ih =>
    rw [List.eraseRepsBy.loop]
    split
    · rename_i hsame
      obtain rfl := eq_of_beq hsame
      rw [ih, List.mem_cons, or_self_left]
    · rw [ih, List.mem_cons, List.mem_cons]
      tauto

theorem mem_eraseReps_iff {x : α} {xs : List α} :
    x ∈ xs.eraseReps ↔ x ∈ xs := by
  cases xs with
  | nil => rfl
  | cons y ys =>
    rw [List.eraseReps, List.eraseRepsBy, mem_eraseReps_loop_iff, List.mem_cons]
    simp

omit [LawfulBEq α] in
theorem eraseReps_loop_eq (previous : α) (xs before : List α) :
    List.eraseRepsBy.loop (· == ·) previous xs before =
      before.reverse ++ List.eraseRepsBy.loop (· == ·) previous xs [] := by
  induction xs generalizing previous before with
  | nil => simp [List.eraseRepsBy.loop]
  | cons x xs ih =>
    rw [List.eraseRepsBy.loop, List.eraseRepsBy.loop]
    split
    · exact ih previous before
    · rw [ih x (previous :: before), ih x [previous]]
      simp

theorem eraseReps_cons_cons (x y : α) (xs : List α) :
    (x :: y :: xs).eraseReps =
      if x == y then (y :: xs).eraseReps else x :: (y :: xs).eraseReps := by
  simp only [List.eraseReps, List.eraseRepsBy]
  rw [List.eraseRepsBy.loop]
  split
  · rename_i hsame
    rw [if_pos hsame, eq_of_beq hsame]
  · rename_i hne
    rw [if_neg (by simp [hne]), eraseReps_loop_eq]
    rfl

theorem eraseReps_sublist (xs : List α) : xs.eraseReps.Sublist xs := by
  induction xs with
  | nil => exact .refl _
  | cons x xs ih =>
    cases xs with
    | nil => exact .refl _
    | cons y xs =>
      rw [eraseReps_cons_cons]
      split
      · exact ih.cons x
      · exact ih.cons_cons x

/-- In a sorted list equal members are next to each other. -/
theorem nodup_eraseReps {le : α → α → Prop} {xs : List α} (hsorted : xs.Pairwise le)
    (hantisymm : ∀ x ∈ xs, ∀ y ∈ xs, le x y → le y x → x = y) : xs.eraseReps.Nodup := by
  induction xs with
  | nil => exact List.nodup_nil
  | cons x xs ih =>
    cases xs with
    | nil => exact List.nodup_singleton x
    | cons y xs =>
      have hrest := ih hsorted.of_cons fun a ha b hb =>
        hantisymm a (List.mem_cons_of_mem x ha) b (List.mem_cons_of_mem x hb)
      rw [eraseReps_cons_cons]
      split
      · exact hrest
      · rename_i hne
        rw [List.nodup_cons, mem_eraseReps_iff]
        refine ⟨fun hmem => ?_, hrest⟩
        have hle := List.rel_of_pairwise_cons hsorted (List.mem_cons_self (a := y))
        have hge : le y x ∨ y = x := by
          rcases List.mem_cons.mp hmem with rfl | hmem
          · exact .inr rfl
          · exact .inl (List.rel_of_pairwise_cons hsorted.of_cons hmem)
        have hsame : x = y := by
          rcases hge with hge | rfl
          · exact hantisymm x List.mem_cons_self y (by simp) hle hge
          · rfl
        simp [hsame] at hne

end

/-! ### Lists side by side -/

theorem forall₂_comp {R : α → β → Prop} {S : β → γ → Prop} {T : α → γ → Prop}
    {as : List α} {bs : List β} {cs : List γ} (hab : List.Forall₂ R as bs)
    (hbc : List.Forall₂ S bs cs) (h : ∀ a ∈ as, ∀ b c, R a b → S b c → T a c) :
    List.Forall₂ T as cs := by
  induction hab generalizing cs with
  | nil =>
    cases hbc
    exact .nil
  | cons hfirst _ ih =>
    cases hbc with
    | cons hfirst' hrest' =>
      exact .cons (h _ List.mem_cons_self _ _ hfirst hfirst')
        (ih hrest' fun a ha => h a (List.mem_cons_of_mem _ ha))

theorem forall₂_flatMap {R : β → γ → Prop} {xs : List α} {f : α → List β} {g : α → List γ}
    (h : ∀ x ∈ xs, List.Forall₂ R (f x) (g x)) :
    List.Forall₂ R (xs.flatMap f) (xs.flatMap g) := by
  have hlists : List.Forall₂ (List.Forall₂ R) (xs.map f) (xs.map g) := by
    rw [List.forall₂_map_left_iff, List.forall₂_map_right_iff, List.forall₂_same]
    exact h
  rw [List.flatMap_def, List.flatMap_def]
  exact List.rel_flatten hlists

/-! ### Order and positions -/

/-- A list that is sorted by different numbers ascends strictly. -/
theorem pairwise_lt_mergeSort (number : α → Int) {xs : List α}
    (hdistinct : (xs.map number).Nodup) :
    (xs.mergeSort fun a b => number a ≤ number b).Pairwise fun a b => number a < number b := by
  have hsorted : (xs.mergeSort fun a b => number a ≤ number b).Pairwise
      fun a b => decide (number a ≤ number b) = true :=
    List.pairwise_mergeSort (fun a b c hab hbc => by simp only [decide_eq_true_eq] at *; omega)
      (fun a b => by simp only [Bool.or_eq_true, decide_eq_true_eq]; omega) xs
  have hperm := List.mergeSort_perm xs fun a b => number a ≤ number b
  have hne := (hperm.map number).nodup_iff.mpr hdistinct
  rw [List.Nodup, List.pairwise_map] at hne
  refine hsorted.imp₂ (fun a b hle hne => ?_) hne
  rw [decide_eq_true_eq] at hle
  omega

/-- Positions may change places after a common start. -/
theorem exists_positions_append (start : List α) {xs ys : List α} {e : Equiv.Perm ℕ}
    (h : ∀ i, ys[e i]? = xs[i]?) :
    ∃ e' : Equiv.Perm ℕ, (∀ i < start.length, e' i = i) ∧
      ∀ i, (start ++ ys)[e' i]? = (start ++ xs)[i]? := by
  let after : ℕ ≃ {i // start.length ≤ i} :=
    ⟨fun i => ⟨i + start.length, by omega⟩, fun i => i - start.length, fun i => by simp,
      fun ⟨i, hi⟩ => by simp [hi]⟩
  have hbefore : ∀ i < start.length, e.extendDomain after i = i := fun i hi =>
    e.extendDomain_apply_not_subtype after (by omega)
  refine ⟨e.extendDomain after, hbefore, fun i => ?_⟩
  by_cases hi : i < start.length
  · rw [hbefore i hi, List.getElem?_append_left hi, List.getElem?_append_left hi]
  · have hafter : e.extendDomain after i = e (i - start.length) + start.length :=
      e.extendDomain_apply_subtype after (by omega)
    rw [hafter, List.getElem?_append_right (by omega), List.getElem?_append_right (by omega),
      Nat.add_sub_cancel, h]

/-- The members of a list in another order are those at other positions. -/
theorem exists_positions_of_perm {xs ys : List α} (h : xs.Perm ys) :
    ∃ e : Equiv.Perm ℕ, ∀ i, ys[e i]? = xs[i]? := by
  induction h with
  | nil => exact ⟨Equiv.refl ℕ, fun _ => rfl⟩
  | cons x _ ih =>
    obtain ⟨e, he⟩ := ih
    obtain ⟨e', -, he'⟩ := exists_positions_append [x] he
    exact ⟨e', he'⟩
  | swap x y xs =>
    refine ⟨Equiv.swap 0 1, fun i => ?_⟩
    match i with
    | 0 => rw [Equiv.swap_apply_left]; rfl
    | 1 => rw [Equiv.swap_apply_right]; rfl
    | i + 2 => rw [Equiv.swap_apply_of_ne_of_ne (by omega) (by omega)]; rfl
  | trans _ _ ih ih' =>
    obtain ⟨e, he⟩ := ih
    obtain ⟨e', he'⟩ := ih'
    exact ⟨e.trans e', fun i => (he' (e i)).trans (he i)⟩

/-! ### Members and prefixes -/

theorem flatMap_subset_iff {f : α → List β} {xs : List α} {ys : List β} :
    xs.flatMap f ⊆ ys ↔ ∀ x ∈ xs, f x ⊆ ys :=
  List.forall_mem_flatMap

theorem mem_of_lookup_eq_some [BEq α] [LawfulBEq α] {pairs : List (α × β)} {key : α}
    {value : β} (h : pairs.lookup key = some value) : (key, value) ∈ pairs := by
  obtain ⟨before, after, rfl, -⟩ := List.lookup_eq_some_iff.mp h
  simp

/-- A running maximum stays below a bound when each value does. -/
theorem foldl_le_iff {f : Nat → α → Nat} {P : α → Prop} {bound : Nat}
    (hf : ∀ count x, f count x ≤ bound ↔ count ≤ bound ∧ P x) (xs : List α) (start : Nat) :
    xs.foldl f start ≤ bound ↔ start ≤ bound ∧ ∀ x ∈ xs, P x := by
  induction xs generalizing start with
  | nil => simp
  | cons x xs ih => rw [List.foldl_cons, ih, hf, List.forall_mem_cons, and_assoc]

/-- A list without an element stands before a list with that element if it stands before what
precedes the element. -/
theorem prefix_append_cons_iff {sep : α} {word cs : List α} (hsep : sep ∉ word)
    (before : List α) :
    word <+: before ++ sep :: cs ↔ word <+: before := by
  constructor
  · intro h
    have hbefore : before ++ [sep] <+: before ++ sep :: cs :=
      (List.prefix_append_right_inj before).mpr (List.prefix_append [sep] cs)
    rcases Nat.lt_or_ge before.length word.length with hlong | hshort
    · have hlonger : (before ++ [sep]).length ≤ word.length := by
        rw [List.length_append]
        exact hlong
      have hinside := List.prefix_of_prefix_length_le hbefore h hlonger
      exact (hsep (hinside.subset (by simp))).elim
    · exact List.prefix_of_prefix_length_le h (List.prefix_append before _) hshort
  · exact fun h => h.trans (List.prefix_append before _)

theorem getLast?_toList_append {text ending : String} {c : Char}
    (h : ending.toList.getLast? = some c) : (text ++ ending).toList.getLast? = some c := by
  rw [String.toList_append, List.getLast?_append, h, Option.some_or]

end FormatterPlan
