import FormatterPlan.Proofs.CleanPlans
import FormatterPlan.Proofs.Grouping
import FormatterPlan.Report

/-! Merged tables.  A table that is made by insertions is told by its types in order and the entry
that it has for each, so numbers and types determine each other.  Merging tables keeps the first
entry of each type in the order of first occurrences, wherever the tables are grouped before. -/

namespace FormatterPlan

namespace FormatterTable

variable {table : FormatterTable} {type : TypeName}

/-! ### Tables with each type once -/

theorem mem_types : type ∈ table.types ↔ ∃ entry ∈ table.entries, entry.type = type :=
  List.mem_map

theorem any_type_eq : table.entries.any (·.type == type) = true ↔ type ∈ table.types := by
  simp [mem_types]

theorem insert_of_mem {entry : TableEntry} (h : entry.type ∈ table.types) :
    table.insert entry = table := by
  rw [insert, if_pos (any_type_eq.mpr h)]

theorem types_insert_of_notMem {entry : TableEntry} (h : entry.type ∉ table.types) :
    (table.insert entry).types = table.types ++ [entry.type] := by
  rw [insert, if_neg (mt any_type_eq.mp h), types, List.map_append]
  rfl

theorem types_foldl_insert (h : table.types.Nodup) (entries : List TableEntry) :
    (entries.foldl insert table).types = (table.types ++ entries.map (·.type)).eraseDups := by
  induction entries generalizing table with
  | nil => rw [List.map_nil, List.append_nil, eraseDups_of_nodup h, List.foldl_nil]
  | cons entry rest ih =>
    rw [List.foldl_cons, List.map_cons]
    by_cases hold : entry.type ∈ table.types
    · rw [insert_of_mem hold, ih h, List.eraseDups_append, List.eraseDups_append]
      congr 2
      rw [List.removeAll, List.removeAll, List.filter_cons_of_neg]
      simpa using hold
    · rw [ih (nodup_types_insert h), types_insert_of_notMem hold, List.append_assoc]
      rfl

/-- The types of merged tables stand where they occur first. -/
theorem types_merge (tables : List FormatterTable) :
    (merge tables).types = (tables.flatMap (·.types)).eraseDups := by
  have hempty : empty.types.Nodup := List.nodup_nil
  rw [merge, types_foldl_insert hempty, List.map_flatMap]
  rfl

theorem find?_eq_some_iff (h : table.types.Nodup) {entry : TableEntry} :
    table.find? type = some entry ↔ entry ∈ table.entries ∧ entry.type = type := by
  constructor
  · intro hfind
    exact ⟨List.mem_of_find?_eq_some hfind, by simpa using List.find?_some hfind⟩
  · rintro ⟨hentry, rfl⟩
    have hsome : (table.find? entry.type).isSome = true :=
      List.find?_isSome.mpr ⟨entry, hentry, beq_self_eq_true _⟩
    obtain ⟨first, hfirst⟩ := Option.isSome_iff_exists.mp hsome
    have htype : first.type = entry.type := by simpa using List.find?_some hfirst
    rw [hfirst, List.inj_on_of_nodup_map h (List.mem_of_find?_eq_some hfirst) hentry htype]

theorem entries_eq_filterMap (h : table.types.Nodup) :
    table.entries = table.types.filterMap table.find? := by
  rw [types, List.filterMap_map]
  calc table.entries = table.entries.filterMap some := List.filterMap_some.symm
    _ = table.entries.filterMap (table.find? ∘ (·.type)) :=
      List.filterMap_congr fun entry hentry =>
        ((find?_eq_some_iff h).mpr ⟨hentry, rfl⟩).symm

/-- Tables with each type once are the same if they have the same types in order and the same entry
for each. -/
theorem eq_of_find? {other : FormatterTable} (h : table.types.Nodup)
    (htypes : other.types = table.types) (hfind : ∀ type, other.find? type = table.find? type) :
    other = table := by
  have hentries : other.entries = table.entries := by
    rw [entries_eq_filterMap h, entries_eq_filterMap (htypes ▸ h), htypes]
    exact List.filterMap_congr fun type _ => hfind type
  cases other
  cases table
  exact congrArg FormatterTable.mk hentries

theorem idOf?_eq_some_iff (h : table.types.Nodup) {i : Nat} :
    table.idOf? type = some i ↔ ∃ entry, table.entries[i]? = some entry ∧ entry.type = type := by
  refine ⟨type_of_idOf?, ?_⟩
  rintro ⟨entry, hentry, rfl⟩
  obtain ⟨hi, rfl⟩ := List.getElem?_eq_some_iff.mp hentry
  refine List.findIdx?_eq_some_iff_getElem.mpr ⟨hi, beq_self_eq_true _, fun j hji hsame => ?_⟩
  have hj : j < table.types.length := by rw [types, List.length_map]; omega
  have hij : j = i := (List.getElem?_inj hj h).mp (by
    simpa [types, List.getElem?_eq_getElem hi, List.getElem?_eq_getElem (hji.trans hi)] using hsame)
  omega

/-! ### Merging -/

theorem merge_singleton (h : table.types.Nodup) : merge [table] = table := by
  refine eq_of_find? h ?_ fun type => ?_
  · rw [types_merge, List.flatMap_singleton, eraseDups_of_nodup h]
  · rw [find?_merge, List.findSome?_singleton]

theorem merge_pair_self (h : table.types.Nodup) : merge [table, table] = table := by
  refine eq_of_find? h ?_ fun type => ?_
  · have hnone : table.types.removeAll table.types = [] :=
      List.filter_eq_nil_iff.mpr fun type htype => by simpa using htype
    rw [types_merge, List.flatMap_cons, List.flatMap_singleton, List.eraseDups_append, hnone,
      List.eraseDups_nil, List.append_nil, eraseDups_of_nodup h]
  · rw [find?_merge, List.findSome?_cons, List.findSome?_singleton]
    cases table.find? type <;> rfl

/-- Tables may be merged group by group first. -/
theorem merge_map_merge (groups : List (List FormatterTable)) :
    merge (groups.map merge) = merge groups.flatten := by
  refine eq_of_find? (nodup_types_merge _) ?_ fun type => ?_
  · rw [types_merge, types_merge, List.flatMap_map, List.flatten_eq_flatMap, List.flatMap_assoc]
    simp only [types_merge, id]
    rw [eraseDups_flatMap_eraseDups]
  · rw [find?_merge, List.findSome?_map, merge, find?_foldl_insert, List.flatten_eq_flatMap,
      List.flatMap_assoc, List.find?_flatMap]
    refine (congrArg (List.findSome? · groups) (funext fun group => ?_)).trans Option.none_or.symm
    rw [Function.comp_apply, find?_merge, id, List.find?_flatMap]
    rfl

/-! ### The tables of a program -/

/-- The tables that are made of graphs and their strategies and merged any number of times. -/
inductive IsMade : FormatterTable → Prop where
  | ofGraph (graph : TypeGraph) (strategies : List Strategy) : IsMade (ofGraph graph strategies)
  | merge {tables : List FormatterTable} (h : ∀ table ∈ tables, IsMade table) :
    IsMade (merge tables)

/-- What a table has to be for its numbers to stand for its types. -/
structure IsDense (table : FormatterTable) : Prop where
  distinct : table.types.Nodup
  numbered : ∀ type i,
    table.idOf? type = some i ↔ ∃ entry, table.entries[i]? = some entry ∧ entry.type = type
  /-- The entry of a type is printed in the row and with the number that are found for the type. -/
  printed : ∀ type i, table.idOf? type = some i → ∃ rows strategy,
    table.toJson = .array rows ∧
      rows[i]? = some (.object [("id", intJson i), ("type", type.toJson), ("strategy", strategy)])
  tabled : ∀ entry ∈ table.entries, entry.strategy ≠ .unresolved ∧ entry.strategy ≠ .assumed ∧
    ∀ formatter, entry.strategy ≠ .builtin formatter

theorem IsMade.nodup_types (h : IsMade table) : table.types.Nodup := by
  cases h with
  | ofGraph graph strategies => exact nodup_types_foldl_insert List.nodup_nil
  | merge h => exact nodup_types_merge _

theorem IsMade.isTabled (h : IsMade table) :
    ∀ entry ∈ table.entries, entry.strategy.isTabled = true := by
  induction h with
  | ofGraph graph strategies =>
    intro entry hentry
    rcases mem_foldl_insert hentry with hempty | hmem
    · simp [empty] at hempty
    · exact (List.mem_filter.mp hmem).2
  | merge h ih =>
    intro entry hentry
    obtain ⟨table, htable, hentry⟩ := mem_merge hentry
    exact ih table htable entry hentry

theorem IsMade.isDense (h : IsMade table) : table.IsDense := by
  refine ⟨h.nodup_types, fun type i => idOf?_eq_some_iff h.nodup_types, fun type i hi => ?_,
    fun entry hentry => ?_⟩
  · obtain ⟨entry, hentry, rfl⟩ := type_of_idOf? hi
    refine ⟨_, entry.strategy.toJson, rfl, ?_⟩
    rw [List.getElem?_mapIdx, hentry]
    rfl
  · have htabled := h.isTabled entry hentry
    refine ⟨fun heq => ?_, fun heq => ?_, fun formatter heq => ?_⟩ <;>
      exact absurd htabled (by rw [heq]; exact Bool.false_ne_true)

/-- What merging makes of some tables. -/
structure IsMergeOf (merged : FormatterTable) (tables : List FormatterTable) : Prop where
  dense : merged.IsDense
  types : merged.types = (tables.flatMap (·.types)).eraseDups
  find?_eq : ∀ type, merged.find? type = tables.findSome? (·.find? type)
  /-- It makes no difference how the tables are grouped. -/
  grouped : ∀ groups : List (List FormatterTable), groups.flatten = tables →
    merge (groups.map merge) = merged

theorem merge_isMergeOf {tables : List FormatterTable} (h : ∀ table ∈ tables, IsMade table) :
    (∀ table ∈ tables, IsDense table ∧ merge [table] = table ∧ merge [table, table] = table) ∧
      merge [] = empty ∧ IsMergeOf (merge tables) tables := by
  refine ⟨fun table htable => ?_, rfl, ?_⟩
  · have hdistinct := (h table htable).nodup_types
    exact ⟨(h table htable).isDense, merge_singleton hdistinct, merge_pair_self hdistinct⟩
  · refine ⟨(IsMade.merge h).isDense, types_merge tables, fun type => find?_merge tables, ?_⟩
    rintro groups rfl
    exact merge_map_merge groups

/-- The table of the class of groups, of which the union of shapes is left out. -/
def groupTable : FormatterTable :=
  .ofGraph (Setting.shapeGraph [.named ⟨97⟩ [], .named ⟨32⟩ [.named ⟨96⟩ []], .named ⟨96⟩ []])
    [.object .keys [], .collection "ListFormatter" none [], .unresolved]

/-- The table of the union of shapes, in which groups are written by position. -/
def shapeTable : FormatterTable :=
  .ofGraph (Setting.shapeGraph [.named ⟨96⟩ [], .named ⟨97⟩ [], .named ⟨32⟩ [.named ⟨96⟩ []]])
    [.union [], .object (.positions 1) [], .collection "ListFormatter" none []]

/-- The first table decides how groups are written and what comes first. -/
theorem merge_groupTable_shapeTable :
    (∀ table ∈ [groupTable, shapeTable], IsMade table) ∧
      (merge [groupTable, shapeTable]).entries.map (·.strategy) =
        [.object .keys [], .collection "ListFormatter" none [], .union []] ∧
      (IsDense groupTable ∧ merge [groupTable] = groupTable ∧
        merge [groupTable, groupTable] = groupTable) ∧
      IsMergeOf (merge [groupTable, shapeTable]) [groupTable, shapeTable] := by
  have hmade : ∀ table ∈ [groupTable, shapeTable], IsMade table := by
    intro table htable
    simp only [List.mem_cons, List.not_mem_nil, or_false] at htable
    rcases htable with rfl | rfl
    · exact .ofGraph _ _
    · exact .ofGraph _ _
  obtain ⟨halone, -, hmerged⟩ := merge_isMergeOf hmade
  exact ⟨hmade, by decide +kernel, halone groupTable List.mem_cons_self, hmerged⟩

end FormatterTable

namespace Setting

variable {s : Setting} {control : RunControl}

theorem isMade_of_plan {roots : List Symbol} {plan : Plan} (h : s.plan control roots = .ok plan) :
    plan.table.IsMade := by
  obtain ⟨analyses, hanalyses, -, htable⟩ := plan_ok h
  have hmade : ∀ a ∈ analyses, a.table.IsMade := by
    refine forall_of_mapM (P := fun a => a.table.IsMade) hanalyses fun root _ a hanalyze => ?_
    rw [analyze_table hanalyze]
    exact .ofGraph a.graph a.strategies
  rw [htable]
  refine .merge fun table hmem => ?_
  obtain ⟨a, ha, rfl⟩ := List.mem_map.mp hmem
  exact hmade a ha

end Setting

end FormatterPlan
