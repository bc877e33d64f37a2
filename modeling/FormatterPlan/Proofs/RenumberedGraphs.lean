import FormatterPlan.Proofs.AnalysisResult
import FormatterPlan.Proofs.LeastBlocked
import FormatterPlan.Proofs.NodeChecks
import FormatterPlan.Proofs.RenumberedNodes

/-! Analyses under new numbers.  Discovery goes by names, so the graph of a renumbered root is the
renumbered graph, in the same order.  The checks, the blocked types and the strategies come out the
same, with one exception: a key attribute that takes a type shows the type with its numbers. -/

namespace FormatterPlan

variable {r : Renumbering}

def TypeGraph.renumber (r : Renumbering) (graph : TypeGraph) : TypeGraph :=
  ⟨graph.nodes.map (·.renumber r)⟩

/-! ### Discovery -/

namespace TypeGraph

@[simp] theorem names_renumber (graph : TypeGraph) : (graph.renumber r).names = graph.names := by
  simp [names, renumber, Function.comp_def]

@[simp] theorem node?_renumber (graph : TypeGraph) (name : TypeName) :
    (graph.renumber r).node? name = (graph.node? name).map (·.renumber r) := by
  simp [node?, renumber, Array.find?_map, Function.comp_def]

@[simp] theorem toList_nodes_renumber (graph : TypeGraph) :
    (graph.renumber r).nodes.toList = graph.nodes.toList.map (·.renumber r) := by
  simp [renumber]

section

variable {s s' : Setting} (h : s.Renumbers r s')

include h

theorem add_renumber (nodes : Array Node) (ref : NamedType) :
    add s' (nodes.map (·.renumber r)) (ref.renumber r) = (add s nodes ref).map (·.renumber r) := by
  have hany : (nodes.map (·.renumber r)).any (·.name == (ref.renumber r).name) =
      nodes.any (·.name == ref.name) := by
    simp [Function.comp_def]
  rw [add, add, hany, NamedType.type_renumber, h.nodeOf]
  split
  · rfl
  · rw [Array.map_push]

theorem foldl_add_renumber (refs : List NamedType) (nodes : Array Node) :
    (refs.map (·.renumber r)).foldl (add s') (nodes.map (·.renumber r)) =
      (refs.foldl (add s) nodes).map (·.renumber r) := by
  induction refs generalizing nodes with
  | nil => rfl
  | cons ref refs ih => rw [List.map_cons, List.foldl_cons, List.foldl_cons, add_renumber h, ih]

theorem explore_renumber (steps next : Nat) (nodes : Array Node) :
    explore s' steps next (nodes.map (·.renumber r)) =
      (explore s steps next nodes).map (·.renumber r) := by
  induction steps generalizing next nodes with
  | zero =>
    rw [explore, explore, Array.getElem?_map]
    cases nodes[next]? <;> rfl
  | succ steps ih =>
    rw [explore, explore, Array.getElem?_map]
    cases nodes[next]? with
    | none => rfl
    | some node =>
      dsimp only [Option.map_some]
      rw [Node.refs_renumber, foldl_add_renumber h, ih]

theorem rootType_renumber (root : Symbol) :
    rootType s'.assembly (r root) = (rootType s.assembly root).renumber r := by
  rw [rootType, rootType, Ty.renumber_definition, h.assembly.genericsOf]

end

end TypeGraph

theorem Setting.Renumbers.graphOf {s s' : Setting} (h : s.Renumbers r s') (control : RunControl)
    (root : Symbol) :
    s'.graphOf control (r root) = (s.graphOf control root).map (·.renumber r) := by
  have hstart : #[s'.nodeOf (TypeGraph.rootType s'.assembly (r root))] =
      #[s.nodeOf (TypeGraph.rootType s.assembly root)].map (·.renumber r) := by
    rw [TypeGraph.rootType_renumber h, h.nodeOf]
    simp
  rw [Setting.graphOf, Setting.graphOf, TypeGraph.discover, TypeGraph.discover, hstart,
    TypeGraph.explore_renumber h]
  split
  · rfl
  · cases TypeGraph.explore s control.steps 0 #[s.nodeOf (TypeGraph.rootType s.assembly root)] <;>
      rfl

/-! ### Checks -/

/-- Renumbered types answer over renumbered declarations like the types do over theirs. -/
theorem Assembly.Renumbers.answers {asm asm' : Assembly} (h : asm.Renumbers r asm') :
    asm.Answers (·.renumber r) asm' :=
  ⟨Ty.isClosed_renumber r, h.isFormatterOf⟩

namespace TypeGraph

variable (graph : TypeGraph) (node : Node)

@[simp] theorem isVariantType_renumber : isVariantType (node.renumber r) = isVariantType node := by
  simp only [isVariantType, Node.kind_renumber]
  simp [Node.renumber]

theorem leavesAt_renumber (name : TypeName) (parts : List TypeName) :
    (graph.renumber r).leavesAt name parts = graph.leavesAt name parts := by
  rw [leavesAt, leavesAt, node?_renumber]
  cases graph.node? name with
  | none => rfl
  | some node => simp [Node.renumber]

mutual

theorem bareLeaves_renumber : ∀ name, (graph.renumber r).bareLeaves name = graph.bareLeaves name
  | .named name args => by
    rw [bareLeaves, bareLeaves, bareLeavesOfAll_renumber args, leavesAt_renumber]
  | .array element rank => by
    rw [bareLeaves, bareLeaves, bareLeaves_renumber element, leavesAt_renumber]
  | .param name => by rw [bareLeaves, bareLeaves, leavesAt_renumber]

theorem bareLeavesOfAll_renumber : ∀ names,
    (graph.renumber r).bareLeavesOfAll names = graph.bareLeavesOfAll names
  | [] => by rw [bareLeavesOfAll, bareLeavesOfAll]
  | name :: rest => by
    rw [bareLeavesOfAll, bareLeavesOfAll, bareLeaves_renumber name, bareLeavesOfAll_renumber rest]

end

@[simp] theorem passedOn_renumber : passedOn (node.renumber r) = passedOn node := by
  unfold passedOn
  rw [Node.kind_renumber]
  cases node.kind <;> simp [Node.renumber, Variant.renumber, Function.comp_def]

/-! ### Findings of a node by itself -/

/-- A renumbered graph says the same of all types. -/
theorem agree_renumber : Agree node graph (graph.renumber r) where
  leaves m _ _ := bareLeaves_renumber graph m.declared.name
  formatterName m _ _ := by
    rw [formatterName, formatterName, node?_renumber]
    cases graph.node? m.declared.name with
    | none => rfl
    | some node =>
      show (node.formatter.map (·.renumber r)).map (·.name) = node.formatter.map (·.name)
      rw [Option.map_map]
      rfl
  isVariantType v _ := by
    rw [node?_renumber]
    cases graph.node? v.type.name <;> simp

/-- The findings of a node without defects are the same. -/
theorem findingsOf_renumber {asm asm' : Assembly} (h : asm.Renumbers r asm') (mapMode : Bool)
    (hdefects : node.defects = []) :
    (graph.renumber r).findingsOf asm' mapMode (node.renumber r) =
      graph.findingsOf asm mapMode node := by
  have hretyped : node.renumber r = node.retype (·.renumber r) := by
    unfold Node.renumber Node.retype
    rw [hdefects]
    rfl
  rw [hretyped, findingsOf_retype node h.answers (agree_renumber graph node)]

end TypeGraph

/-! ### Findings before they are worded -/

/-- What is reported: a finding that shows no numbers of declarations, or a key attribute that takes
a type, which does. -/
inductive Report where
  | plain (finding : Finding)
  | typeKey (subject : TypeName) (place : String) (type : Ty)
deriving DecidableEq

namespace Report

def finding : Report → Finding
  | .plain f => f
  | .typeKey subject place type =>
    (Flaw.defect (.keyArgument place (.type type))).finding subject none

def renumber (r : Renumbering) : Report → Report
  | .plain f => .plain f
  | .typeKey subject place type => .typeKey subject place (type.renumber r)

def ofDefect (subject : TypeName) : Defect → Report
  | .keyArgument place (.type type) => .typeKey subject place type
  | d => .plain ((Flaw.defect d).finding subject none)

theorem finding_ofDefect (subject : TypeName) (d : Defect) :
    (ofDefect subject d).finding = (Flaw.defect d).finding subject none := by
  unfold ofDefect
  split <;> rfl

theorem ofDefect_renumber (subject : TypeName) (d : Defect) :
    ofDefect subject (d.renumber r) = (ofDefect subject d).renumber r := by
  match d with
  | .keyArgument place (.type type) => rfl
  | .keyArgument _ (.int _) | .keyArgument _ (.string _) | .keyArgument _ (.bool _)
  | .keyArgument _ .null | .cyclicBases _ | .keyRange _ _ | .noFormatterType _
  | .unionArguments _ => rfl

theorem renumber_injective : Function.Injective (renumber r) := by
  rintro (f | ⟨subject, place, type⟩) (f' | ⟨subject', place', type'⟩) heq
  · exact heq
  · simp [renumber] at heq
  · simp [renumber] at heq
  · simp only [renumber, typeKey.injEq] at heq
    obtain ⟨rfl, rfl, htype⟩ := heq
    rw [Ty.renumber_injective r htype]

end Report

namespace TypeGraph

/-- The reports of a node by itself: its findings, before defects are worded. -/
def reportsOf (asm : Assembly) (mapMode : Bool) (graph : TypeGraph) (node : Node) : List Report :=
  (graph.findingsOf asm mapMode { node with defects := [] }).map .plain ++
    node.defects.map (.ofDefect node.name)

theorem map_finding_reportsOf (asm : Assembly) (mapMode : Bool) (graph : TypeGraph) (node : Node) :
    (graph.reportsOf asm mapMode node).map Report.finding = graph.findingsOf asm mapMode node := by
  have hdefects : graph.findingsOf asm mapMode node =
      graph.findingsOf asm mapMode { node with defects := [] } ++
        node.defects.map fun d => (Flaw.defect d).finding node.name none := by
    unfold findingsOf
    rw [List.map_nil, List.append_nil]
    rfl
  rw [reportsOf, hdefects, List.map_append, List.map_map, List.map_map]
  congr 1
  · exact List.map_id' _
  · exact List.map_congr_left fun d _ => Report.finding_ofDefect node.name d

section

variable {asm asm' : Assembly} (h : asm.Renumbers r asm') (mapMode : Bool) (graph : TypeGraph)

include h

theorem reportsOf_renumber (node : Node) :
    (graph.renumber r).reportsOf asm' mapMode (node.renumber r) =
      (graph.reportsOf asm mapMode node).map (·.renumber r) := by
  have hplain := findingsOf_renumber graph { node with defects := [] } h mapMode rfl
  have hdefects : (node.renumber r).defects = node.defects.map (·.renumber r) := rfl
  rw [reportsOf, reportsOf, List.map_append, List.map_map, List.map_map, ← hplain, hdefects,
    List.map_map]
  congr 1
  exact List.map_congr_left fun d _ => Report.ofDefect_renumber node.name d

theorem isEmpty_findingsOf_renumber (node : Node) :
    ((graph.renumber r).findingsOf asm' mapMode (node.renumber r)).isEmpty =
      (graph.findingsOf asm mapMode node).isEmpty := by
  rw [← map_finding_reportsOf, ← map_finding_reportsOf, reportsOf_renumber h, List.isEmpty_map,
    List.isEmpty_map, List.isEmpty_map]

theorem faulty_renumber :
    faulty asm' mapMode (graph.renumber r) = faulty asm mapMode graph := by
  rw [faulty, faulty, ← List.map_prod_left_eq_zip, ← List.map_prod_left_eq_zip,
    toList_nodes_renumber]
  simp only [List.filter_map, List.map_map, Function.comp_def, isEmpty_findingsOf_renumber h,
    Node.name_renumber]

end

/-! ### Blocked types -/

variable (graph : TypeGraph) (blocked : List TypeName)

theorem namesOutside_renumber (names : List TypeName) :
    (graph.renumber r).namesOutside names = graph.namesOutside names := by
  rw [namesOutside, namesOutside, names_renumber]

theorem blockedTarget_renumber (unvisited pending : List TypeName) :
    (graph.renumber r).blockedTarget blocked unvisited pending =
      graph.blockedTarget blocked unvisited pending := by
  induction unvisited, pending using blockedTarget.induct graph blocked with
  | case1 unvisited => rw [blockedTarget, blockedTarget]
  | case2 unvisited name pending hblocked =>
    rw [blockedTarget, blockedTarget, if_pos hblocked, if_pos hblocked]
  | case3 unvisited name pending hblocked hmem next ih =>
    rw [blockedTarget, blockedTarget, if_neg hblocked, if_neg hblocked, if_pos hmem, if_pos hmem]
    dsimp only
    rw [node?_renumber]
    cases hnode : graph.node? name with
    | none => simpa [next, hnode] using ih
    | some node =>
      have hformatter : (node.renumber r).formatter.isSome = node.formatter.isSome :=
        Option.isSome_map
      simpa [next, hnode, hformatter] using ih
  | case4 unvisited name pending hblocked hmem ih =>
    rw [blockedTarget, blockedTarget, if_neg hblocked, if_neg hblocked, if_neg hmem, if_neg hmem,
      ih]

theorem blockedReferences_renumber (node : Node) :
    (graph.renumber r).blockedReferences blocked (node.renumber r) =
      graph.blockedReferences blocked node := by
  have hbases : (node.renumber r).bases.map (·.name) = node.bases.map (·.name) := by
    simp [Node.renumber, Function.comp_def]
  have hmembers : (node.renumber r).members = node.members.map (·.renumber r) := rfl
  rw [blockedReferences, blockedReferences, Node.kind_renumber, names_renumber, hbases, hmembers]
  simp only [blockedTarget_renumber, List.filter_map, List.filterMap_map, Function.comp_def,
    NodeMember.renumber, Option.isNone_map, NamedType.type_renumber, NamedType.name_renumber,
    Ty.isClosed_renumber]

theorem keep_renumber (sound : List TypeName) :
    (graph.renumber r).keep sound = graph.keep sound := by
  rw [keep, keep, namesOutside_renumber]
  refine List.filter_congr fun name _ => ?_
  rw [isIndependent, isIndependent, node?_renumber]
  cases graph.node? name with
  | none => rfl
  | some node => simp [blockedReferences_renumber]

theorem settle_renumber (sound : List TypeName) :
    (graph.renumber r).settle sound = graph.settle sound := by
  induction sound using WellFounded.induction (measure List.length).wf with
  | _ sound ih =>
    have hleft : (graph.renumber r).settle sound = _ := settle_eq sound
    have hright : graph.settle sound = _ := settle_eq sound
    rw [hleft, hright, keep_renumber]
    split
    · rename_i hshorter
      exact ih _ hshorter
    · rfl

end TypeGraph

namespace Verdict

open TypeGraph

variable {asm asm' : Assembly} (h : asm.Renumbers r asm') (mapMode : Bool) (graph : TypeGraph)

include h

theorem blocked_renumber : (ofGraph asm' mapMode (graph.renumber r)).blocked =
    (ofGraph asm mapMode graph).blocked := by
  change (graph.renumber r).namesOutside ((graph.renumber r).settle
      ((graph.renumber r).namesOutside (faulty asm' mapMode (graph.renumber r)))) =
    graph.namesOutside (graph.settle (graph.namesOutside (faulty asm mapMode graph)))
  rw [faulty_renumber h, namesOutside_renumber, settle_renumber, namesOutside_renumber]

theorem isBlocked_renumber (name : TypeName) :
    (ofGraph asm' mapMode (graph.renumber r)).isBlocked name =
      (ofGraph asm mapMode graph).isBlocked name := by
  rw [isBlocked, isBlocked, blocked_renumber h]

theorem dependenceFindings_renumber :
    (ofGraph asm' mapMode (graph.renumber r)).dependenceFindings asm' mapMode (graph.renumber r) =
      (ofGraph asm mapMode graph).dependenceFindings asm mapMode graph := by
  have hnodes : (ofGraph asm' mapMode (graph.renumber r)).dependentNodes asm' mapMode
      (graph.renumber r) =
        ((ofGraph asm mapMode graph).dependentNodes asm mapMode graph).map (·.renumber r) := by
    rw [dependentNodes, dependentNodes, toList_nodes_renumber, List.filter_map]
    simp only [Function.comp_def, Node.name_renumber, isBlocked_renumber h,
      isEmpty_findingsOf_renumber h]
  rw [dependenceFindings, dependenceFindings, hnodes, List.flatMap_map, blocked_renumber h]
  simp only [blockedReferences_renumber, Node.name_renumber, dependenceFlaw]

end Verdict

/-! ### Strategies -/

namespace StrategySetting

variable {c c' : StrategySetting}

/-- What the choice of strategies reads of a renumbered graph. -/
structure Renumbers (r : Renumbering) (c c' : StrategySetting) : Prop where
  graph : c'.graph = c.graph.renumber r
  blocked : c'.verdict.blocked = c.verdict.blocked
  mapMode : c'.mapMode = c.mapMode

theorem objectStrategy_renumber (mapMode : Bool) (node : Node) :
    objectStrategy mapMode (node.renumber r) = objectStrategy mapMode node := by
  have hmembers : (node.renumber r).members.filterMap plannedMember? =
      node.members.filterMap plannedMember? := by
    change (node.members.map (NodeMember.renumber r)).filterMap plannedMember? = _
    rw [List.filterMap_map]
    refine List.filterMap_congr fun m _ => ?_
    obtain ⟨name, declared, access, key, formatter, origin⟩ := m
    cases formatter <;> rfl
  have hmap : (node.renumber r).isMapEncoded mapMode = node.isMapEncoded mapMode := by
    change (mapMode || (node.members.map (NodeMember.renumber r)).any _) = _
    rw [List.any_map]
    rfl
  rw [objectStrategy, objectStrategy, hmembers, hmap]

theorem unionStrategy_renumber (variants : List Variant) :
    unionStrategy (variants.map (·.renumber r)) = unionStrategy variants := by
  rw [unionStrategy, unionStrategy, List.map_map]
  rfl

namespace Renumbers

variable (h : c.Renumbers r c')

include h

theorem collectionStrategy (shape : CollectionShape) (elements : List TypeName) :
    StrategySetting.collectionStrategy c'.graph shape elements =
      StrategySetting.collectionStrategy c.graph shape elements := by
  rw [h.graph]
  simp only [StrategySetting.collectionStrategy, TypeGraph.node?_renumber, Option.any_map,
    Node.kind_renumber]

theorem isBlocked (name : TypeName) : c'.verdict.isBlocked name = c.verdict.isBlocked name := by
  rw [Verdict.isBlocked, Verdict.isBlocked, h.blocked]

theorem parts (node : Node) : c'.parts (node.renumber r) = c.parts node := by
  have hformatter : (node.renumber r).formatter.isSome = node.formatter.isSome := Option.isSome_map
  rw [StrategySetting.parts, StrategySetting.parts, Node.name_renumber, h.isBlocked, hformatter,
    TypeGraph.passedOn_renumber]

theorem fullStrategy (node : Node) : c'.fullStrategy (node.renumber r) = c.fullStrategy node := by
  have helements : (node.renumber r).elements.map (·.name) = node.elements.map (·.name) := by
    simp [Node.renumber, Function.comp_def]
  have hvariants : unionStrategy (node.renumber r).variants = unionStrategy node.variants :=
    unionStrategy_renumber node.variants
  unfold StrategySetting.fullStrategy
  rw [Node.name_renumber, h.isBlocked, h.mapMode, objectStrategy_renumber, Node.kind_renumber,
    helements, hvariants]
  simp only [h.collectionStrategy]
  split
  · rfl
  · obtain ⟨self, kind, members, bases, variants, elements, formatter, defects⟩ := node
    cases formatter with
    | some custom => rfl
    | none =>
      cases kind with
      | enumeration => cases elements <;> rfl
      | object _ isOpen | union isOpen => cases isOpen <;> rfl
      | _ => rfl

theorem choose (depth : Nat) : c'.choose depth = c.choose depth := by
  induction depth with
  | zero =>
    funext state name
    rw [StrategySetting.choose, StrategySetting.choose]
  | succ depth ih =>
    funext state name
    rw [StrategySetting.choose, StrategySetting.choose, h.graph, TypeGraph.node?_renumber]
    cases c.graph.node? name with
    | none => rfl
    | some node =>
      dsimp only [Option.map_some]
      rw [strategyOf_eq, strategyOf_eq, h.parts, h.fullStrategy, ih]

/-- The same strategies are chosen. -/
theorem strategies (state : StrategyState) : c'.strategies state = c.strategies state := by
  have hsize : c'.graph.nodes.size = c.graph.nodes.size := by
    rw [h.graph]
    exact Array.size_map
  have hstrategy : c'.strategy = c.strategy := by
    funext state name
    rw [StrategySetting.strategy, StrategySetting.strategy, hsize, h.choose]
  rw [StrategySetting.strategies, StrategySetting.strategies, hstrategy, h.graph,
    TypeGraph.names_renumber]

end Renumbers

end StrategySetting

/-! ### Analyses -/

def Analysis.renumber (r : Renumbering) (s' : Setting) (a : Analysis) : Analysis :=
  { a with graph := a.graph.renumber r, verdict := s'.verdictOn (a.graph.renumber r) }

namespace Setting.Renumbers

variable {s s' : Setting} (h : s.Renumbers r s')

include h

/-- The analysis of a renumbered root has the renumbered graph, the same strategies and the same
table. -/
theorem analyze (control : RunControl) (root : Symbol) : s'.analyze control (r root) =
    (s.analyze control root).map (·.renumber r s') := by
  have hroot : s'.assembly.typeName (TypeGraph.rootType s'.assembly (r root)) =
      s.assembly.typeName (TypeGraph.rootType s.assembly root) := by
    rw [TypeGraph.rootType_renumber h, h.assembly.typeName]
  rw [Setting.analyze, Setting.analyze, h.graphOf]
  cases s.graphOf control root with
  | error e => rfl
  | ok graph =>
    have hchoices : (s.strategySetting graph (s.verdictOn graph)).Renumbers r
        (s'.strategySetting (graph.renumber r) (s'.verdictOn (graph.renumber r))) := by
      refine ⟨rfl, ?_, ?_⟩
      · change (Verdict.ofGraph _ s'.options.mapMode _).blocked = _
        rw [h.options]
        exact Verdict.blocked_renumber h.assembly s.options.mapMode graph
      · change s'.options.mapMode = s.options.mapMode
        rw [h.options]
    change Except.ok (Analysis.mk _ _ _ _ _) = Except.ok (Analysis.mk _ _ _ _ _)
    rw [hroot, hchoices.strategies, FormatterTable.ofGraph, TypeGraph.names_renumber]
    rfl

end Setting.Renumbers

/-! ### Reports of an analysis -/

namespace Setting

variable {s s' : Setting} {a : Analysis}

/-- What an analysis reports, before it is worded and with repetitions. -/
def reports (s : Setting) (a : Analysis) : List Report :=
  a.graph.nodes.toList.flatMap (a.graph.reportsOf s.assembly s.options.mapMode) ++
    (a.verdict.dependenceFindings s.assembly s.options.mapMode a.graph).map .plain

theorem Analyzed.findings_eq (h : Analyzed s a) :
    a.verdict.findings = ((s.reports a).map Report.finding).eraseDups := by
  rw [h.verdict, verdictOn, Verdict.findings_ofGraph h.complete.distinct, reports, List.map_append,
    List.map_flatMap, List.map_map, h.verdict]
  simp only [TypeGraph.map_finding_reportsOf]
  congr 2
  exact (List.map_id' _).symm

theorem Renumbers.reports (h : s.Renumbers r s') (hverdict : a.verdict = s.verdictOn a.graph) :
    s'.reports (a.renumber r s') = (s.reports a).map (·.renumber r) := by
  rw [Setting.reports, Setting.reports, List.map_append, List.map_flatMap, List.map_map, hverdict,
    Analysis.renumber]
  dsimp only
  rw [verdictOn, verdictOn, h.options, Verdict.dependenceFindings_renumber h.assembly,
    TypeGraph.toList_nodes_renumber, List.flatMap_map]
  simp only [TypeGraph.reportsOf_renumber h.assembly]
  rfl

end Setting

end FormatterPlan
