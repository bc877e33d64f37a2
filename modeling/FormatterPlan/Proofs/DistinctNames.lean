import FormatterPlan.Proofs.CleanPlans
import FormatterPlan.Proofs.StoredTypes

/-! Names tell types apart.  In a loaded assembly a closed type is determined by its name, so the
node under the name of a closed type is the one made from it, and so is the entry of a table.  Nodes
and entries that are found by name never stand for two types at once.  Types that are not closed
share their names with others: a parameter goes by its name alone, wherever it stands. -/

namespace FormatterPlan

namespace Setting

variable {s : Setting}

/-- Every entry of a plan comes from the analysis of one of the roots. -/
theorem exists_analysis_of_mem_plan {documents : List Document}
    (hload : Assembly.load documents = .ok s.assembly) {control : RunControl}
    {roots : List Symbol} (hroots : ∀ root ∈ roots, root.index < s.assembly.defs.size)
    {plan : Plan} (hplan : s.plan control roots = .ok plan) {entry : TableEntry}
    (hentry : entry ∈ plan.table.entries) :
    ∃ root ∈ roots, ∃ a, s.analyze control root = .ok a ∧ Analyzed s a ∧
      a.strategyOf? entry.type = some entry.strategy := by
  obtain ⟨analyses, hanalyses, -, htable⟩ := plan_ok hplan
  rw [htable] at hentry
  obtain ⟨table, hmem, hentry⟩ := FormatterTable.mem_merge hentry
  obtain ⟨a, ha, rfl⟩ := List.mem_map.mp hmem
  have hfrom : ∀ a ∈ analyses, ∃ root ∈ roots, s.analyze control root = .ok a :=
    forall_of_mapM hanalyses fun root hroot a hanalyze =>
      ⟨root, mem_orderedRoots_iff.mp hroot, hanalyze⟩
  obtain ⟨root, hroot, hanalyze⟩ := hfrom a ha
  have h := analyzed_of_analyze hload (hroots root hroot) hanalyze
  exact ⟨root, hroot, a, hanalyze, h, h.strategyOf?_of_mem_table (analyze_table hanalyze) hentry⟩

end Setting

/-! ### Closed types -/

namespace TypeGraph

/-- The node under the name of a closed type is the one of that type. -/
theorem Complete.node?_eq_nodeOf {s : Setting} {graph : TypeGraph} (hg : Complete s graph) {t : Ty}
    (ht : t.Fits s.assembly Ty.NoParam) {node : Node}
    (h : graph.node? (s.assembly.typeName t) = some node) : node = s.nodeOf t := by
  have hnode := hg.node?_typeName ht.anyParam ht.isClosed (mem_names_of_node? h)
  rw [h] at hnode
  exact Option.some.inj hnode

end TypeGraph

namespace Assembly

/-- An assembly whose closed types are told apart by their names, wherever names stand for types. -/
structure NamesTypesApart (asm : Assembly) : Prop where
  typeName_eq_iff : ∀ t u : Ty, t.Fits asm Ty.NoParam → u.Fits asm Ty.NoParam →
    (asm.typeName t = asm.typeName u ↔ t = u)
  /-- A node is made from the closed type under whose name it is found. -/
  nodes : ∀ (s : Setting) (control : RunControl) (root : Symbol) (graph : TypeGraph),
    s.assembly = asm → root.index < asm.defs.size → s.graphOf control root = .ok graph →
      ∀ t : Ty, t.Fits asm Ty.NoParam →
        (∀ node, graph.node? (asm.typeName t) = some node → node = s.nodeOf t) ∧
        ∀ u : Ty, u.Fits asm Ty.NoParam → ∀ i, graph.idOf? (asm.typeName t) = some i →
          graph.idOf? (asm.typeName u) = some i → t = u
  /-- An entry of a plan has the strategy that is chosen for the node of its type. -/
  entries : ∀ (s : Setting) (control : RunControl) (roots : List Symbol) (plan : Plan),
    s.assembly = asm → (∀ root ∈ roots, root.index < asm.defs.size) →
      s.plan control roots = .ok plan → ∀ t : Ty, t.Fits asm Ty.NoParam →
        (∀ entry ∈ plan.table.entries, entry.type = asm.typeName t →
          ∃ root ∈ roots, ∃ a, s.analyze control root = .ok a ∧
            a.graph.node? entry.type = some (s.nodeOf t) ∧
            a.strategyOf? entry.type = some entry.strategy) ∧
        ∀ u : Ty, u.Fits asm Ty.NoParam → ∀ i, plan.table.idOf? (asm.typeName t) = some i →
          plan.table.idOf? (asm.typeName u) = some i → t = u

/-- In a loaded assembly two closed types have the same name only when they are the same type, so
no node and no entry of a table stands for two of them. -/
theorem namesTypesApart_of_load {asm : Assembly} {documents : List Document}
    (h : load documents = .ok asm) : asm.NamesTypesApart := by
  have hwf := wellFormed_of_load h
  have hname : ∀ t u : Ty, t.Fits asm Ty.NoParam → u.Fits asm Ty.NoParam →
      asm.typeName t = asm.typeName u → t = u := fun t u ht hu =>
    hwf.distinct.eq_of_typeName_eq ht.anyParam hu.anyParam ht.isClosed
  constructor
  case typeName_eq_iff => exact fun t u ht hu => ⟨hname t u ht hu, congrArg asm.typeName⟩
  case nodes =>
    rintro s control root graph rfl hroot hgraph t ht
    have hg := TypeGraph.complete_of_graphOf hwf hroot hgraph
    refine ⟨fun node hnode => hg.node?_eq_nodeOf ht hnode, fun u hu i hti hui => ?_⟩
    obtain ⟨node, hnode, htn⟩ := (TypeGraph.idOf?_eq_some_iff hg.distinct).mp hti
    obtain ⟨other, hother, hun⟩ := (TypeGraph.idOf?_eq_some_iff hg.distinct).mp hui
    obtain rfl : node = other := Option.some.inj (hnode.symm.trans hother)
    exact hname t u ht hu (htn.symm.trans hun)
  case entries =>
    rintro s control roots plan rfl hroots hplan t ht
    refine ⟨fun entry hentry htype => ?_, fun u hu i hti hui => ?_⟩
    · obtain ⟨root, hroot, a, hanalyze, ha, hstrategy⟩ :=
        Setting.exists_analysis_of_mem_plan h hroots hplan hentry
      have hmem := ha.mem_names_of_strategyOf? hstrategy
      refine ⟨root, hroot, a, hanalyze, ?_, hstrategy⟩
      rw [htype] at hmem ⊢
      exact ha.complete.node?_typeName ht.anyParam ht.isClosed hmem
    · obtain ⟨entry, hentry, htn⟩ := FormatterTable.type_of_idOf? hti
      obtain ⟨other, hother, hun⟩ := FormatterTable.type_of_idOf? hui
      obtain rfl : entry = other := Option.some.inj (hentry.symm.trans hother)
      exact hname t u ht hu (htn.symm.trans hun)

end Assembly

/-- Two classes of one name, told apart by their arity, and a class that nests them. -/
def nestedDocument : Document where
  types := [
    { name := "App.Node", kind := .concreteClass,
      attributes := [.bare "MessagePack.MessagePackObjectAttribute"] },
    { name := "App.Node", kind := .concreteClass, generics := ["T"],
      attributes := [.bare "MessagePack.MessagePackObjectAttribute"] },
    { name := "App.User", kind := .concreteClass,
      attributes := [.bare "MessagePack.MessagePackObjectAttribute"],
      members := [
        { name := "A", type := some "App.Node<App.Node>",
          attributes := [.full "MessagePack.KeyAttribute" [.value (.number (.integer 0))]] },
        { name := "B", type := some "App.Node<App.Node<App.Node>>",
          attributes := [.full "MessagePack.KeyAttribute" [.value (.number (.integer 1))]] }] }]

def nestedDefs : List TypeDef := [
  { name := "App.Node", kind := .concreteClass, generics := [], base := none, underlying := none,
    attributes := [⟨⟨90⟩, []⟩], members := [] },
  { name := "App.Node", kind := .concreteClass, generics := ["T"], base := none,
    underlying := none, attributes := [⟨⟨90⟩, []⟩], members := [] },
  { name := "App.User", kind := .concreteClass, generics := [], base := none, underlying := none,
    attributes := [⟨⟨90⟩, []⟩],
    members := [
      { name := "A", kind := .property, type := some (.named ⟨97⟩ [.named ⟨96⟩ []]), params := [],
        access := .everyone, isStatic := false, attributes := [⟨⟨91⟩, [.int 0]⟩] },
      { name := "B", kind := .property, type := some (.named ⟨97⟩ [.named ⟨97⟩ [.named ⟨96⟩ []]]),
        params := [], access := .everyone, isStatic := false,
        attributes := [⟨⟨91⟩, [.int 1]⟩] }] }]

def nestedSetting : Setting := .ofDefs nestedDefs {}

/-- The nodes of the class that nests the other two. -/
def nestedGraph : TypeGraph :=
  ⟨#[nestedSetting.nodeOf (.named ⟨98⟩ []), nestedSetting.nodeOf (.named ⟨97⟩ [.named ⟨96⟩ []]),
    nestedSetting.nodeOf (.named ⟨97⟩ [.named ⟨97⟩ [.named ⟨96⟩ []]])]⟩

theorem loads_nestedDocument : Assembly.load [nestedDocument] = .ok nestedSetting.assembly :=
  (Setting.loads_ofDefs (by decide +kernel) (toOption_eq_some_iff.mp (by decide +kernel)) {}).1

theorem nestedSetting_namesTypesApart :
    Assembly.load [nestedDocument] = .ok nestedSetting.assembly ∧
      nestedSetting.graphOf {} ⟨98⟩ = .ok nestedGraph ∧ nestedSetting.assembly.NamesTypesApart :=
  ⟨loads_nestedDocument, TypeGraph.graphOf_eq_ok rfl (by decide +kernel),
    Assembly.namesTypesApart_of_load loads_nestedDocument⟩

end FormatterPlan
