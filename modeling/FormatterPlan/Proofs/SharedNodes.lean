import FormatterPlan.Proofs.LeastBlocked
import FormatterPlan.Proofs.RootAgreement

/-! Nodes that two graphs share.  The validity of a closed type is a matter of the type: wherever it
is found its node is the same, the checks say the same of it, and it is blocked or it is not. -/

namespace FormatterPlan

namespace Setting

open Verdict (itemDocument itemSetting itemGraph)

variable {s : Setting} {graph graph' : TypeGraph} {node node' : Node}

/-- What two graphs have in common at nodes of one type. -/
structure AgreesAt (s : Setting) (graph graph' : TypeGraph) (node node' : Node) : Prop where
  /-- The kind, the members, what the node refers to and the defects are the same. -/
  same : node = node'
  findings : graph.findingsOf s.assembly s.options.mapMode node =
    graph'.findingsOf s.assembly s.options.mapMode node'
  isBlocked : (s.verdictOn graph).isBlocked node.name = (s.verdictOn graph').isBlocked node'.name

/-- Two nodes of one closed name are the node of one type that both analyses have. -/
theorem Analyzed.exists_shared {a b : Analysis} (h : Analyzed s a) (h' : Analyzed s b)
    (hnode : node ∈ a.graph.nodes) (hnode' : node' ∈ b.graph.nodes) (hname : node'.name = node.name)
    (hclosed : node.self.type.isClosed = true) :
    ∃ t, Shared s a b t ∧ node = s.nodeOf t ∧ node' = s.nodeOf t := by
  obtain ⟨t, ht, rfl⟩ := h.complete.made node hnode
  rw [nodeOf_self, named_type] at hclosed
  rw [nodeOf_name] at hname
  have hfound : a.graph.node? (s.assembly.typeName t) = some (s.nodeOf t) :=
    (TypeGraph.node?_eq_some_iff h.complete.distinct).mpr ⟨hnode, nodeOf_name⟩
  have hfound' : b.graph.node? (s.assembly.typeName t) = some node' :=
    (TypeGraph.node?_eq_some_iff h'.complete.distinct).mpr ⟨hnode', hname⟩
  have hmade := h'.complete.node?_typeName ht hclosed (TypeGraph.mem_names_of_node? hfound')
  rw [hfound', Option.some.injEq] at hmade
  exact ⟨t, ⟨h, h', ⟨ht, hclosed, hfound⟩, ⟨ht, hclosed, hmade ▸ hfound'⟩⟩, rfl, hmade⟩

/-- In a loaded assembly the graphs of two roots agree at every closed type that both find. -/
theorem agreesAt_of_name_eq {documents : List Document}
    (hload : Assembly.load documents = .ok s.assembly) {control control' : RunControl}
    {root root' : Symbol} (hroot : root.index < s.assembly.defs.size)
    (hroot' : root'.index < s.assembly.defs.size) (hgraph : s.graphOf control root = .ok graph)
    (hgraph' : s.graphOf control' root' = .ok graph') (hnode : node ∈ graph.nodes)
    (hnode' : node' ∈ graph'.nodes) (hname : node'.name = node.name)
    (hclosed : node.self.type.isClosed = true) : s.AgreesAt graph graph' node node' := by
  obtain ⟨a, hanalyze, rfl⟩ := exists_analyze_eq_ok hgraph
  obtain ⟨b, hanalyze', rfl⟩ := exists_analyze_eq_ok hgraph'
  have h := analyzed_of_analyze hload hroot hanalyze
  have h' := analyzed_of_analyze hload hroot' hanalyze'
  obtain ⟨t, hshared, rfl, rfl⟩ := h.exists_shared h' hnode hnode' hname hclosed
  refine ⟨rfl, hshared.findingsOf_eq, ?_⟩
  rw [← h.verdict, ← h'.verdict, nodeOf_name]
  exact hshared.isBlocked_eq

/-- The class of items of `itemDocument` by itself, with the type of its member. -/
def itemOnlyGraph : TypeGraph :=
  ⟨#[itemSetting.nodeOf (.named ⟨97⟩ []), itemSetting.nodeOf (.named ⟨5⟩ [])]⟩

/-- The class with the list and the class of items agree on the latter, which is faulty. -/
theorem agreesAt_item : Assembly.load [itemDocument] = .ok itemSetting.assembly ∧
    97 < itemSetting.assembly.defs.size ∧ itemSetting.graphOf {} ⟨96⟩ = .ok itemGraph ∧
    itemSetting.graphOf {} ⟨97⟩ = .ok itemOnlyGraph ∧
    itemOnlyGraph.findingsOf itemSetting.assembly false
      (itemSetting.nodeOf (.named ⟨97⟩ [])) ≠ [] ∧
    itemSetting.AgreesAt itemGraph itemOnlyGraph (itemSetting.nodeOf (.named ⟨97⟩ []))
      (itemSetting.nodeOf (.named ⟨97⟩ [])) := by
  have hload : Assembly.load [itemDocument] = .ok itemSetting.assembly :=
    (loads_ofDefs (by decide +kernel) (toOption_eq_some_iff.mp (by decide +kernel)) {}).1
  have hgraph : itemSetting.graphOf {} ⟨96⟩ = .ok itemGraph :=
    TypeGraph.graphOf_eq_ok rfl (by decide +kernel)
  have hsize : 97 < itemSetting.assembly.defs.size := by decide +kernel
  have hgraph' : itemSetting.graphOf {} ⟨97⟩ = .ok itemOnlyGraph :=
    TypeGraph.graphOf_eq_ok rfl (by decide +kernel)
  have hnode : itemSetting.nodeOf (.named ⟨97⟩ []) ∈ itemGraph.nodes :=
    Array.mem_iff_getElem?.mpr ⟨2, rfl⟩
  have hnode' : itemSetting.nodeOf (.named ⟨97⟩ []) ∈ itemOnlyGraph.nodes :=
    Array.mem_iff_getElem?.mpr ⟨0, rfl⟩
  have hclosed : (itemSetting.nodeOf (.named ⟨97⟩ [])).self.type.isClosed = true := by
    rw [nodeOf_self, named_type]
    rfl
  exact ⟨hload, hsize, hgraph, hgraph', by decide +kernel,
    agreesAt_of_name_eq hload (by decide +kernel) hsize hgraph hgraph' hnode hnode' rfl hclosed⟩

end Setting

end FormatterPlan
