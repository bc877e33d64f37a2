import FormatterPlan.Proofs.AnalysisResult

/-! Formatter tables.  A table that is made by insertions has each type once, with the first entry
that is inserted for it, so the table of an analysis has an entry for a type exactly when its
strategy is one that is tabled, and a merged table has the entry of the first table that has one. -/

namespace FormatterPlan

namespace FormatterTable

variable {table : FormatterTable} {type : TypeName}

theorem find?_insert (entry : TableEntry) :
    (table.insert entry).find? type =
      (table.find? type).or (if entry.type = type then some entry else none) := by
  rw [insert]
  by_cases hold : table.entries.any (·.type == entry.type) = true
  · rw [if_pos hold]
    by_cases htype : entry.type = type
    · subst htype
      have hsome : (table.find? entry.type).isSome = true := by
        rw [find?, List.find?_isSome]
        simpa using hold
      rw [Option.or_of_isSome hsome]
    · rw [if_neg htype, Option.or_none]
  · rw [if_neg hold, find?, List.find?_append, find?]
    congr 1
    by_cases htype : entry.type = type <;> simp [htype]

/-- Of the entries that are inserted for a type the first is kept. -/
theorem find?_foldl_insert (entries : List TableEntry) :
    (entries.foldl insert table).find? type =
      (table.find? type).or (entries.find? (·.type == type)) := by
  induction entries generalizing table with
  | nil => simp
  | cons entry rest ih =>
    rw [List.foldl_cons, ih, find?_insert, Option.or_assoc, List.find?_cons]
    congr 1
    by_cases htype : entry.type = type
    · simp [htype]
    · rw [if_neg htype, Option.none_or, beq_eq_false_iff_ne.mpr htype]

/-- The strategies in the table of a graph are tabled. -/
theorem isTabled_of_find?_ofGraph {graph : TypeGraph} {strategies : List Strategy}
    {entry : TableEntry} (h : (ofGraph graph strategies).find? type = some entry) :
    entry.strategy.isTabled = true := by
  rw [ofGraph, find?_foldl_insert] at h
  exact (List.mem_filter.mp (List.mem_of_find?_eq_some h)).2

/-- A merged table has the entry of the first table that has one. -/
theorem find?_merge (tables : List FormatterTable) :
    (merge tables).find? type = tables.findSome? (·.find? type) := by
  rw [merge, find?_foldl_insert, List.find?_flatMap]
  rfl

/-! ### Entries -/

def types (table : FormatterTable) : List TypeName := table.entries.map (·.type)

theorem mem_insert {table : FormatterTable} {entry e : TableEntry}
    (h : e ∈ (table.insert entry).entries) : e ∈ table.entries ∨ e = entry := by
  unfold insert at h
  split at h
  · exact .inl h
  · simpa using h

theorem mem_foldl_insert {entries : List TableEntry} {table : FormatterTable} {e : TableEntry}
    (h : e ∈ (entries.foldl insert table).entries) : e ∈ table.entries ∨ e ∈ entries := by
  induction entries generalizing table with
  | nil => exact .inl h
  | cons entry rest ih =>
    rcases ih h with hinsert | hrest
    · rcases mem_insert hinsert with hold | rfl
      · exact .inl hold
      · exact .inr List.mem_cons_self
    · exact .inr (List.mem_cons_of_mem entry hrest)

theorem nodup_types_insert {table : FormatterTable} {entry : TableEntry} (h : table.types.Nodup) :
    (table.insert entry).types.Nodup := by
  unfold insert
  split
  · exact h
  · rename_i hnew
    simp only [types, List.map_append, List.map_cons, List.map_nil, List.nodup_append,
      List.mem_singleton, List.mem_map]
    refine ⟨h, List.nodup_singleton _, ?_⟩
    rintro _ ⟨e, he, rfl⟩ _ rfl hsame
    exact hnew (List.any_eq_true.mpr ⟨e, he, beq_iff_eq.mpr hsame⟩)

/-- A table that is made by insertions has each name once. -/
theorem nodup_types_foldl_insert {entries : List TableEntry} {table : FormatterTable}
    (h : table.types.Nodup) : (entries.foldl insert table).types.Nodup := by
  induction entries generalizing table with
  | nil => exact h
  | cons entry rest ih => exact ih (nodup_types_insert h)

theorem nodup_types_merge (tables : List FormatterTable) : (merge tables).types.Nodup :=
  nodup_types_foldl_insert List.nodup_nil

theorem mem_merge {tables : List FormatterTable} {e : TableEntry} (h : e ∈ (merge tables).entries) :
    ∃ table ∈ tables, e ∈ table.entries := by
  rcases mem_foldl_insert h with hempty | hmem
  · simp [empty] at hempty
  · exact List.mem_flatMap.mp hmem

theorem type_of_idOf? {table : FormatterTable} {type : TypeName} {i : Nat}
    (h : table.idOf? type = some i) :
    ∃ entry, table.entries[i]? = some entry ∧ entry.type = type := by
  obtain ⟨hlt, htype, -⟩ := List.findIdx?_eq_some_iff_getElem.mp h
  exact ⟨_, List.getElem?_eq_getElem hlt, by simpa using htype⟩

end FormatterTable

namespace Setting

variable {s : Setting} {control : RunControl} {root : Symbol} {a : Analysis}

theorem analyze_table (h : s.analyze control root = .ok a) :
    a.table = .ofGraph a.graph a.strategies := by
  unfold analyze at h
  obtain ⟨graph, hgraph, h⟩ := bind_eq_ok_iff.mp h
  obtain rfl := Except.ok.inj h
  rfl

/-- The table of an analysis has an entry for a type exactly when its strategy is tabled. -/
theorem Analyzed.find?_ofGraph (h : Analyzed s a) (name : TypeName) :
    (FormatterTable.ofGraph a.graph a.strategies).find? name =
      ((a.strategyOf? name).filter Strategy.isTabled).map (TableEntry.mk name) := by
  rw [FormatterTable.ofGraph, FormatterTable.find?_foldl_insert]
  dsimp only
  rw [h.strategies, ← List.map_prod_left_eq_zip, List.map_map, List.find?_filter, List.find?_map]
  change Option.or none _ = _
  rw [Option.none_or]
  cases hfound : a.graph.names.find? _ with
  | some type =>
    have hentry := List.find?_some hfound
    simp only [Function.comp_apply, decide_eq_true_eq, beq_iff_eq] at hentry
    obtain ⟨htabled, rfl⟩ := hentry
    rw [h.strategyOf?_eq (List.mem_of_find?_eq_some hfound), Option.filter_some, if_pos htabled]
    rfl
  | none =>
    have hnone := List.find?_eq_none.mp hfound
    cases hstrategy : a.strategyOf? name with
    | none => rfl
    | some strategy =>
      have hname := h.mem_names_of_strategyOf? hstrategy
      rw [h.strategyOf?_eq hname, Option.some.injEq] at hstrategy
      subst hstrategy
      have huntabled := hnone name hname
      simp only [Function.comp_apply, decide_eq_true_eq, beq_self_eq_true, and_true] at huntabled
      rw [Option.filter_some, if_neg huntabled]
      rfl

/-- What an entry of a table says: the strategy that some analysis has chosen for its name. -/
theorem Analyzed.strategyOf?_of_mem_table {a : Analysis} (h : Analyzed s a)
    (htable : a.table = .ofGraph a.graph a.strategies) {entry : TableEntry}
    (hentry : entry ∈ a.table.entries) : a.strategyOf? entry.type = some entry.strategy := by
  rw [htable, FormatterTable.ofGraph] at hentry
  rcases FormatterTable.mem_foldl_insert hentry with hempty | hmem
  · simp [FormatterTable.empty] at hempty
  · obtain ⟨⟨name, strategy⟩, hzip, rfl⟩ := List.mem_map.mp (List.mem_filter.mp hmem).1
    rw [h.strategies, ← List.map_prod_left_eq_zip] at hzip
    obtain ⟨name, hname, heq⟩ := List.mem_map.mp hzip
    obtain ⟨rfl, rfl⟩ := Prod.mk.inj heq
    exact h.strategyOf?_eq hname

end Setting

end FormatterPlan
