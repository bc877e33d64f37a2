import FormatterPlan.Proofs.Lists
import FormatterPlan.TypeGraph.Checks

/-! Groups of values under keys.  What the checks report as repeated are the groups of more than one
value, so a list without such groups has different keys. -/

namespace FormatterPlan

variable {κ β : Type} [DecidableEq κ] {pairs : List (κ × β)}

/-- A key that is used is the key of one group, which holds the values under it. -/
theorem mem_groupByKey_iff {key : κ} {values : List β} : (key, values) ∈ groupByKey pairs ↔
    key ∈ pairs.map (·.1) ∧ values = (pairs.filter (·.1 = key)).map (·.2) := by
  rw [groupByKey, List.mem_map]
  constructor
  · rintro ⟨used, hused, hgroup⟩
    obtain ⟨rfl, rfl⟩ := Prod.mk.inj hgroup
    exact ⟨List.mem_eraseDups.mp hused, rfl⟩
  · rintro ⟨hkey, rfl⟩
    exact ⟨key, List.mem_eraseDups.mpr hkey, rfl⟩

theorem exists_mem_groupByKey {key : κ} {value : β} (h : (key, value) ∈ pairs) :
    ∃ values, (key, values) ∈ groupByKey pairs :=
  ⟨_, mem_groupByKey_iff.mpr ⟨List.mem_map.mpr ⟨(key, value), h, rfl⟩, rfl⟩⟩

theorem count_eq_length_group (key : κ) :
    (pairs.map (·.1)).count key = ((pairs.filter (·.1 = key)).map (·.2)).length := by
  rw [List.length_map, ← List.countP_eq_length_filter, List.count, List.countP_map]
  exact List.countP_congr fun pair _ => by simp

/-- Keys are different when no group has more than one value. -/
theorem repeatedGroups_eq_nil_iff :
    (groupByKey pairs).filter (1 < ·.2.length) = [] ↔ (pairs.map (·.1)).Nodup := by
  rw [List.nodup_iff_count_le_one, List.filter_eq_nil_iff]
  constructor
  · intro h key
    by_cases hkey : key ∈ pairs.map (·.1)
    · have hgroup := h _ (mem_groupByKey_iff.mpr ⟨hkey, rfl⟩)
      rw [decide_eq_true_eq, ← count_eq_length_group] at hgroup
      omega
    · have hnone := List.count_eq_zero_of_not_mem hkey
      omega
  · rintro h ⟨key, values⟩ hgroup
    obtain ⟨-, rfl⟩ := mem_groupByKey_iff.mp hgroup
    have hcount := h key
    rw [count_eq_length_group] at hcount
    simpa using hcount

end FormatterPlan
