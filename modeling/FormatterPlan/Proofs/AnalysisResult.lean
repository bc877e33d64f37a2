import FormatterPlan.Proofs.Blocking
import FormatterPlan.Proofs.Choice

/-! What an analysis returns: a complete graph, the verdict on it, and for each node the strategy
that is chosen in the end.  The strategy of an object is given only to a closed type that names no
formatter and has no finding, neither by itself nor by what it depends on. -/

namespace FormatterPlan

/-- The strategy of the node of a name. -/
def Analysis.strategyOf? (a : Analysis) (name : TypeName) : Option Strategy :=
  (a.graph.idOf? name).bind (a.strategies[·]?)

/-- What the strategies of an analysis are chosen from. -/
def Analysis.choices (s : Setting) (a : Analysis) : StrategySetting :=
  s.strategySetting a.graph a.verdict

namespace Setting

variable {s : Setting} {control : RunControl} {root : Symbol} {a : Analysis}

theorem analyze_ok (h : s.analyze control root = .ok a) :
    s.graphOf control root = .ok a.graph ∧ a.verdict = s.verdictOn a.graph ∧
      a.strategies = a.graph.names.map (a.choices s).strategyAt := by
  unfold analyze at h
  obtain ⟨graph, hgraph, h⟩ := bind_eq_ok_iff.mp h
  obtain rfl := Except.ok.inj h
  exact ⟨hgraph, rfl, StrategySetting.strategies_initial _⟩

theorem exists_analyze_eq_ok {graph : TypeGraph} (h : s.graphOf control root = .ok graph) :
    ∃ a, s.analyze control root = .ok a ∧ a.graph = graph := by
  unfold analyze
  rw [h]
  exact ⟨_, rfl, rfl⟩

/-- The parts of an analysis in a loaded assembly. -/
structure Analyzed (s : Setting) (a : Analysis) : Prop where
  complete : TypeGraph.Complete s a.graph
  verdict : a.verdict = s.verdictOn a.graph
  strategies : a.strategies = a.graph.names.map (a.choices s).strategyAt

theorem analyzed_of_analyze {documents : List Document}
    (hload : Assembly.load documents = .ok s.assembly) (hroot : root.index < s.assembly.defs.size)
    (h : s.analyze control root = .ok a) : Analyzed s a := by
  obtain ⟨hgraph, hverdict, hstrategies⟩ := analyze_ok h
  exact ⟨TypeGraph.complete_of_graphOf (Assembly.wellFormed_of_load hload) hroot hgraph, hverdict,
    hstrategies⟩

namespace Analyzed

theorem isBlocked_iff (h : Analyzed s a) {name : TypeName} :
    (a.choices s).verdict.isBlocked name = true ↔
      TypeGraph.Blocked s.assembly s.options.mapMode a.graph name := by
  rw [Analysis.choices, strategySetting, h.verdict]
  exact h.complete.isBlocked_iff

theorem isBlocked_eq_false_iff (h : Analyzed s a) {t : Ty} :
    (a.choices s).verdict.isBlocked (s.nodeOf t).name = false ↔
      ¬ TypeGraph.Blocked s.assembly s.options.mapMode a.graph (s.assembly.typeName t) := by
  rw [Bool.eq_false_iff, nodeOf_name, ne_eq, h.isBlocked_iff]

theorem strategyOf?_eq (h : Analyzed s a) {name : TypeName} (hname : name ∈ a.graph.names) :
    a.strategyOf? name = some ((a.choices s).strategyAt name) := by
  obtain ⟨i, node, hi, rfl⟩ := TypeGraph.mem_namesOf.mp hname
  rw [Analysis.strategyOf?, (TypeGraph.idOf?_eq_some_iff h.complete.distinct).mpr ⟨node, hi, rfl⟩,
    Option.bind_some, h.strategies]
  simp [TypeGraph.names, hi]

/-- A node with a finding is blocked. -/
theorem isBlocked_of_findingsOf (h : Analyzed s a) {node : Node} (hnode : node ∈ a.graph.nodes)
    (hfinding : a.graph.findingsOf s.assembly s.options.mapMode node ≠ []) :
    a.verdict.isBlocked node.name = true :=
  h.isBlocked_iff.mpr
    (.finding ((TypeGraph.node?_eq_some_iff h.complete.distinct).mpr ⟨hnode, rfl⟩) hfinding)

theorem mem_names_of_strategyOf? (h : Analyzed s a) {name : TypeName} {strategy : Strategy}
    (hstrategy : a.strategyOf? name = some strategy) : name ∈ a.graph.names := by
  obtain ⟨i, hi, -⟩ := Option.bind_eq_some_iff.mp hstrategy
  obtain ⟨node, hnode, rfl⟩ := (TypeGraph.idOf?_eq_some_iff h.complete.distinct).mp hi
  exact TypeGraph.mem_namesOf.mpr ⟨i, node, hnode, rfl⟩

/-- A closed type that has a node. -/
structure HasNode (s : Setting) (a : Analysis) (t : Ty) : Prop where
  fits : t.Fits s.assembly Ty.AnyParam
  isClosed : t.isClosed = true
  node : a.graph.node? (s.assembly.typeName t) = some (s.nodeOf t)

theorem HasNode.eq_node {t : Ty} (h : HasNode s a t) {node : Node}
    (hnode : a.graph.node? (s.assembly.typeName t) = some node) : node = s.nodeOf t := by
  rw [h.node] at hnode
  exact (Option.some.inj hnode).symm

/-- A closed type that another node refers to has a node. -/
theorem hasNode_of_mem_refs (h : Analyzed s a) {name : TypeName} {node : Node}
    (hnode : a.graph.node? name = some node) {r : NamedType} (hr : r ∈ node.refs)
    (hclosed : r.type.isClosed = true) : HasNode s a r.type ∧ r = s.named r.type := by
  obtain ⟨hfits, hnamed, hfound⟩ := h.complete.node?_of_mem_refs hnode hr hclosed
  rw [hnamed, named_name] at hfound
  exact ⟨⟨hfits, hclosed, hfound⟩, hnamed⟩

/-- A node that depends on no parts has its full strategy. -/
theorem strategyOf?_of_parts_eq_nil (h : Analyzed s a) {name : TypeName} {node : Node}
    (hnode : a.graph.node? name = some node) (hparts : (a.choices s).parts node = []) :
    a.strategyOf? name = some ((a.choices s).fullStrategy node) := by
  rw [h.strategyOf?_eq (TypeGraph.mem_names_of_node? hnode),
    StrategySetting.strategyAt_of_parts_eq_nil hnode hparts]

/-- A closed object that is not blocked and names no formatter is written as one. -/
theorem strategyOf?_object (h : Analyzed s a) {t : Ty} {keysAsNames : Bool}
    (hnode : a.graph.node? (s.assembly.typeName t) = some (s.nodeOf t))
    (hkind : s.kindOf t = .object keysAsNames false) (hformatter : (s.nodeOf t).formatter = none)
    (hsound : ¬ TypeGraph.Blocked s.assembly s.options.mapMode a.graph (s.assembly.typeName t)) :
    a.strategyOf? (s.assembly.typeName t) =
      some (StrategySetting.objectStrategy s.options.mapMode (s.nodeOf t)) := by
  have hblocked := h.isBlocked_eq_false_iff.mpr hsound
  have hparts : (a.choices s).parts (s.nodeOf t) = [] := by
    simp [StrategySetting.parts, TypeGraph.passedOn, hkind]
  rw [h.strategyOf?_of_parts_eq_nil hnode hparts, StrategySetting.fullStrategy, hblocked,
    hformatter, nodeOf_kind, hkind]
  rfl

/-- A node that names a formatter has no other strategy, unless it is blocked. -/
theorem strategyOf?_of_formatter (h : Analyzed s a) {node : Node} (hnode : node ∈ a.graph.nodes)
    {custom : NamedType} (hformatter : node.formatter = some custom) :
    a.strategyOf? node.name = some
      (if a.verdict.isBlocked node.name = true then .unresolved else .custom custom.name) := by
  have hfound := (TypeGraph.node?_eq_some_iff h.complete.distinct).mpr ⟨hnode, rfl⟩
  have hparts : (a.choices s).parts node = [] := by
    simp [StrategySetting.parts, hformatter]
  rw [h.strategyOf?_of_parts_eq_nil hfound hparts, StrategySetting.fullStrategy, hformatter]
  rfl

/-- The node of a type that is written as an object, and what it is planned from. -/
structure WrittenAsObject (s : Setting) (a : Analysis) (t : Ty) (keysAsNames : Bool)
    (planned : List PlannedMember) : Prop extends HasNode s a t where
  kind : s.kindOf t = .object keysAsNames false
  sound : ¬ TypeGraph.Blocked s.assembly s.options.mapMode a.graph (s.assembly.typeName t)
  planned : planned.Perm ((s.nodeOf t).members.filterMap StrategySetting.plannedMember?)

/-- A strategy that is not missing is the full strategy of the node. -/
theorem exists_fullStrategy (h : Analyzed s a) {name : TypeName} {strategy : Strategy}
    (hstrategy : a.strategyOf? name = some strategy) (hresolved : strategy ≠ .unresolved) :
    ∃ t, t.Fits s.assembly Ty.AnyParam ∧ s.assembly.typeName t = name ∧
      a.graph.node? (s.assembly.typeName t) = some (s.nodeOf t) ∧
      (a.choices s).fullStrategy (s.nodeOf t) = strategy := by
  have hname := h.mem_names_of_strategyOf? hstrategy
  obtain ⟨t, ht, rfl, hnode⟩ := h.complete.exists_node? hname
  rw [h.strategyOf?_eq hname, Option.some.injEq] at hstrategy
  subst hstrategy
  exact ⟨t, ht, rfl, hnode,
    (StrategySetting.strategyAt_eq_fullStrategy (s := a.choices s) hnode hresolved).symm⟩

theorem writtenAsObject (h : Analyzed s a) {name : TypeName} {layout : ObjectLayout}
    {planned : List PlannedMember} (hobject : a.strategyOf? name = some (.object layout planned)) :
    ∃ t keysAsNames, s.assembly.typeName t = name ∧
      WrittenAsObject s a t keysAsNames planned ∧
      StrategySetting.objectStrategy s.options.mapMode (s.nodeOf t) = .object layout planned := by
  obtain ⟨t, ht, rfl, hnode, hfull⟩ := h.exists_fullStrategy hobject (by simp)
  obtain ⟨hsound, -, ⟨keysAsNames, hkind⟩, hstrategy⟩ :=
    StrategySetting.fullStrategy_eq_object hfull
  rw [nodeOf_kind] at hkind
  have hclosed : t.isClosed = true := by simpa using (isOpen_eq (.inl ⟨keysAsNames, hkind⟩)).symm
  exact ⟨t, keysAsNames, rfl, ⟨⟨ht, hclosed, hnode⟩, hkind, h.isBlocked_eq_false_iff.mp hsound,
    StrategySetting.perm_of_objectStrategy hstrategy⟩, hstrategy⟩

end Analyzed

/-- Without findings, a closed object that names no formatter is written as one. -/
theorem exists_analyze_object {documents : List Document}
    (hload : Assembly.load documents = .ok s.assembly) (hroot : root.index < s.assembly.defs.size)
    {graph : TypeGraph} (hgraph : s.graphOf control root = .ok graph)
    (hfindings : ∀ node ∈ graph.nodes.toList,
      graph.findingsOf s.assembly s.options.mapMode node = [])
    {t : Ty} (hnode : graph.node? (s.assembly.typeName t) = some (s.nodeOf t)) {keysAsNames : Bool}
    (hkind : s.kindOf t = .object keysAsNames false) (hformatter : (s.nodeOf t).formatter = none) :
    ∃ a, s.analyze control root = .ok a ∧ a.graph = graph ∧ s.nodeOf t ∈ a.graph.nodes ∧
      a.strategyOf? (s.nodeOf t).name =
        some (StrategySetting.objectStrategy s.options.mapMode (s.nodeOf t)) := by
  obtain ⟨a, hanalyze, rfl⟩ := exists_analyze_eq_ok hgraph
  have h := analyzed_of_analyze hload hroot hanalyze
  have hsound := TypeGraph.not_blocked_of_findingsOf hfindings (s.assembly.typeName t)
  refine ⟨a, hanalyze, rfl, ((TypeGraph.node?_eq_some_iff h.complete.distinct).mp hnode).1, ?_⟩
  rw [nodeOf_name, h.strategyOf?_object hnode hkind hformatter hsound]

end Setting

end FormatterPlan
