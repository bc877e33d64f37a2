import FormatterPlan.Proofs.ExtendedLoading
import FormatterPlan.Proofs.NodeChecks

/-! Analyses next to unrelated documents.  Discovery and the checks of nodes come to no other types
than those that a root leads to, so over further declarations the graph of a root is the same, its
findings are, and so is all that is worked out from them. -/

namespace FormatterPlan

variable {s s' : Setting}

theorem Node.mem_types_of_mem_members {node : Node} {m : NodeMember} (hm : m ∈ node.members)
    {custom : NamedType} (hcustom : custom ∈ m.formatter) : custom.type ∈ node.types := by
  refine List.mem_map_of_mem ?_
  simp only [List.mem_append, List.mem_filterMap]
  exact .inl (.inl (.inl (.inr ⟨m, hm, hcustom⟩)))

theorem Node.mem_types_of_formatter {node : Node} {custom : NamedType}
    (hcustom : custom ∈ node.formatter) : custom.type ∈ node.types := by
  refine List.mem_map_of_mem (List.mem_append_right _ (Option.mem_toList.mpr hcustom))

namespace TypeGraph

/-! ### Checks -/

/-- The findings of a node ask an assembly about its formatters alone. -/
theorem findingsOf_congr {asm asm' : Assembly} (mapMode : Bool) (graph : TypeGraph) {node : Node}
    (hmembers : ∀ m ∈ node.members, ∀ custom ∈ m.formatter, ∀ target,
      asm'.isFormatterOf custom.type target = asm.isFormatterOf custom.type target)
    (hself : ∀ custom ∈ node.formatter, ∀ target,
      asm'.isFormatterOf custom.type target = asm.isFormatterOf custom.type target) :
    graph.findingsOf asm' mapMode node = graph.findingsOf asm mapMode node := by
  have hmember : graph.memberFormatterFindings asm' node =
      graph.memberFormatterFindings asm node := by
    refine List.flatMap_congr fun m hm => ?_
    cases hcustom : m.formatter with
    | none => rfl
    | some custom =>
      dsimp only
      rw [hmembers m (List.mem_filter.mp hm).1 custom hcustom]
  have hformatter : formatterFindings asm' node = formatterFindings asm node := by
    rw [formatterFindings, formatterFindings]
    cases hcustom : node.formatter with
    | none => rfl
    | some custom =>
      dsimp only
      rw [hself custom hcustom]
  rw [findingsOf, findingsOf, hmember, hformatter]

end TypeGraph

theorem Verdict.ofGraph_congr {asm asm' : Assembly} {mapMode : Bool} {graph : TypeGraph}
    (h : ∀ node ∈ graph.nodes,
      graph.findingsOf asm' mapMode node = graph.findingsOf asm mapMode node) :
    ofGraph asm' mapMode graph = ofGraph asm mapMode graph := by
  have hown : graph.nodes.toList.map (graph.findingsOf asm' mapMode) =
      graph.nodes.toList.map (graph.findingsOf asm mapMode) :=
    List.map_congr_left fun node hnode => h node (Array.mem_toList_iff.mp hnode)
  unfold ofGraph
  dsimp only
  rw [hown]

theorem Assembly.Extends.rootType {asm asm' : Assembly} (h : asm'.Extends asm) {root : Symbol}
    (hroot : root.index < asm.defs.size) :
    TypeGraph.rootType asm' root = TypeGraph.rootType asm root := by
  have hd : asm.def? root = some asm.defs[root.index] := Array.getElem?_eq_getElem hroot
  rw [TypeGraph.rootType, TypeGraph.rootType, Assembly.genericsOf, Assembly.genericsOf, hd,
    h.def? hd]

namespace Setting.Extends

variable (h : s'.Extends s) (hwf : s.assembly.WellFormed) (hwf' : s'.assembly.WellFormed)
  (hsound : s.assembly.StoresSoundTypes)

include h hwf hwf' hsound

/-! ### Discovery -/

theorem add (nodes : Array Node) {t : Ty} (ht : t.Fits s.assembly Ty.AnyParam) :
    TypeGraph.add s' nodes (s.named t) = TypeGraph.add s nodes (s.named t) := by
  rw [TypeGraph.add, TypeGraph.add, named_type, h.nodeOf hwf hsound hwf' ht]

/-- Discovery goes through the same nodes. -/
theorem explore {root : Ty} (hroot : root.Fits s.assembly Ty.AnyParam) {steps next : Nat}
    {nodes : Array Node} (hexplored : TypeGraph.Explored s root next nodes) :
    TypeGraph.explore s' steps next nodes = TypeGraph.explore s steps next nodes := by
  induction steps generalizing next nodes with
  | zero => rw [TypeGraph.explore, TypeGraph.explore]
  | succ steps ih =>
    rw [TypeGraph.explore, TypeGraph.explore]
    cases hnode : nodes[next]? with
    | none => rfl
    | some node =>
      obtain ⟨k, t, hreached, rfl⟩ := hexplored.reached next node hnode
      have ht := hreached.fits hwf hroot
      have hrefs : (s.nodeOf t).refs.foldl (TypeGraph.add s') nodes =
          (s.nodeOf t).refs.foldl (TypeGraph.add s) nodes := by
        refine List.foldl_ext _ _ _ fun nodes r hr => ?_
        obtain ⟨u, hrefers, rfl⟩ := (mem_refs_iff hwf ht).mp hr
        exact h.add hwf hwf' hsound nodes (hrefers.fits hwf ht)
      dsimp only
      rw [hrefs]
      exact ih (hexplored.step hwf hroot hnode)

theorem graphOf (control : RunControl) {root : Symbol}
    (hroot : root.index < s.assembly.defs.size) :
    s'.graphOf control root = s.graphOf control root := by
  have hfits := rootType_fits hroot
  have hdiscover : TypeGraph.discover s' control.steps root =
      TypeGraph.discover s control.steps root := by
    rw [TypeGraph.discover, TypeGraph.discover, h.assembly.rootType hroot,
      h.nodeOf hwf hsound hwf' hfits]
    exact h.explore hwf hwf' hsound hfits .initial
  rw [Setting.graphOf, Setting.graphOf, hdiscover]

/-! ### Analyses -/

omit hwf' in
/-- The checks of a graph come to the same. -/
theorem verdictOn {control : RunControl} {root : Symbol}
    (hroot : root.index < s.assembly.defs.size) {graph : TypeGraph}
    (hgraph : s.graphOf control root = .ok graph) :
    s'.verdictOn graph = s.verdictOn graph := by
  obtain ⟨_, -, hexplored⟩ := TypeGraph.explored_of_graphOf hwf hroot hgraph
  rw [Setting.verdictOn, Setting.verdictOn, h.options]
  refine Verdict.ofGraph_congr fun node hnode => ?_
  obtain ⟨i, hi⟩ := Array.mem_iff_getElem?.mp hnode
  obtain ⟨k, t, hreached, rfl⟩ := hexplored.reached i node hi
  have ht := hreached.fits hwf (rootType_fits hroot)
  have hformatter : ∀ u ∈ (s.nodeOf t).types, ∀ target,
      s'.assembly.isFormatterOf u target = s.assembly.isFormatterOf u target := fun u hu =>
    h.assembly.isFormatterOf ((leadsTo_of_mem_types hu).fits hwf hsound ht)
  refine TypeGraph.findingsOf_congr _ graph (fun m hm custom hcustom => ?_) fun custom hcustom => ?_
  · exact hformatter _ (Node.mem_types_of_mem_members hm hcustom)
  · exact hformatter _ (Node.mem_types_of_formatter hcustom)

theorem analyze (control : RunControl) {root : Symbol}
    (hroot : root.index < s.assembly.defs.size) :
    s'.analyze control root = s.analyze control root := by
  rw [Setting.analyze, Setting.analyze, h.graphOf hwf hwf' hsound control hroot]
  cases hgraph : s.graphOf control root with
  | error interruption => rfl
  | ok graph =>
    have hname := h.assembly.typeName (rootType_fits hroot)
    have hverdict := h.verdictOn hwf hsound hroot hgraph
    have hsetting : s'.strategySetting graph = s.strategySetting graph := by
      funext verdict
      rw [strategySetting, strategySetting, h.options]
    simp only [bind, Except.bind, hverdict, hsetting, h.assembly.rootType hroot, hname]

end Setting.Extends

/-! ### Documents -/

/-- Whether an assembly leaves the declarations of another one and their analyses as they are. -/
structure Assembly.KeptIn (asm asm' : Assembly) : Prop where
  /-- A declaration has its old symbol, with its kind, members, bases and attributes. -/
  def? : ∀ symbol d, asm.def? symbol = some d → asm'.def? symbol = some d
  /-- An analysis has the same graph, findings, strategies and table, or none if it had none. -/
  analyze : ∀ hidden options control root, root.index < asm.defs.size →
    (Setting.of? asm' hidden options).map (·.analyze control root) =
      (Setting.of? asm hidden options).map (·.analyze control root)

namespace Assembly

variable {asm asm' : Assembly} {documents further : List Document}

/-- Unrelated documents do not disturb what is declared before them. -/
theorem keptIn_of_unrelated (hload : load documents = .ok asm)
    (hload' : load (documents ++ further) = .ok asm') (hunrelated : Unrelated documents further) :
    asm.KeptIn asm' := by
  have hextends := extends_of_load hload hload' hunrelated
  constructor
  case def? => exact fun symbol d => hextends.def?
  case analyze =>
    intro hidden options control root hroot
    have hroles := ofAssembly?_eq hload hload' hunrelated hidden
    rw [Setting.of?, Setting.of?, hroles, Option.map_map, Option.map_map]
    refine congrArg (Option.map · _) (funext fun roles => ?_)
    have hsetting : Setting.Extends ⟨asm', roles, options⟩ ⟨asm, roles, options⟩ :=
      ⟨hextends, rfl, rfl⟩
    exact hsetting.analyze (wellFormed_of_load hload) (wellFormed_of_load hload')
      (storesSoundTypes_of_load hload) control hroot

/-- A class of forests, which are trees with further trees. -/
def forestDocument : Document where
  types := [
    { name := "App.Forest", kind := .concreteClass, base := some "App.Tree",
      attributes := [.bare "MessagePack.MessagePackObjectAttribute"],
      members := [
        { name := "Trees", type := some "App.Tree[]",
          attributes := [.full "MessagePack.KeyAttribute" [.value (.number (.integer 2))]] }] }]

/-- The class of forests as it is loaded after the class of trees. -/
def forestDef : TypeDef where
  name := "App.Forest"
  kind := .concreteClass
  generics := []
  base := some (.named ⟨96⟩ [])
  underlying := none
  attributes := [⟨⟨90⟩, []⟩]
  members := [
    { name := "Trees", kind := .property, type := some (.array (.named ⟨96⟩ []) 1), params := [],
      access := .everyone, isStatic := false, attributes := [⟨⟨91⟩, [.int 2]⟩] }]

theorem keptIn_forest :
    load [TypeGraph.treeDocument] = .ok (ofDefs [TypeGraph.treeDef]) ∧
      load [TypeGraph.treeDocument, forestDocument] =
        .ok (ofDefs [TypeGraph.treeDef, forestDef]) ∧
      Unrelated [TypeGraph.treeDocument] [forestDocument] ∧
      (ofDefs [TypeGraph.treeDef]).KeptIn (ofDefs [TypeGraph.treeDef, forestDef]) := by
  have hload : load [TypeGraph.treeDocument] = .ok (ofDefs [TypeGraph.treeDef]) :=
    load_eq_ok (nodup_metadataNames_of_apart (by decide +kernel))
      (toOption_eq_some_iff.mp (by decide +kernel))
  have hload' : load ([TypeGraph.treeDocument] ++ [forestDocument]) =
      .ok (ofDefs [TypeGraph.treeDef, forestDef]) :=
    load_eq_ok (nodup_metadataNames_of_apart (by decide +kernel))
      (toOption_eq_some_iff.mp (by decide +kernel))
  have hunrelated : Unrelated [TypeGraph.treeDocument] [forestDocument] :=
    ⟨by decide +kernel, by decide +kernel⟩
  exact ⟨hload, hload', hunrelated, keptIn_of_unrelated hload hload' hunrelated⟩

end Assembly

end FormatterPlan
