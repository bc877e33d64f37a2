import FormatterPlan.Proofs.AnalysisResult
import FormatterPlan.Proofs.Grouping

/-! What a verdict says of its graph.  The blocked types are the least list that contains the types
with findings and each object that depends on a type of the list.  Rounds come to it after at most
one more than there are nodes.  The findings are those of the nodes by themselves, then those of the
objects that are blocked by what they depend on, so there are none only if nothing is blocked. -/

namespace FormatterPlan

namespace TypeGraph

variable {asm : Assembly} {mapMode : Bool} {graph : TypeGraph}

/-! ### Rounds and their number -/

/-- The types that a round finds to depend on a type that is not sound. -/
def newlyBlocked (graph : TypeGraph) (sound : List TypeName) : List TypeName :=
  sound.filter fun name => !graph.isIndependent (graph.namesOutside sound) name

/-- The sound types that rounds leave, with the number of rounds.  The last round finds nothing. -/
inductive SettlesIn (graph : TypeGraph) : Nat → List TypeName → List TypeName → Prop
  | last {sound : List TypeName} (hnone : graph.newlyBlocked sound = []) :
      SettlesIn graph 1 sound sound
  | round {rounds : Nat} {sound left : List TypeName} (hsome : graph.newlyBlocked sound ≠ [])
      (hrest : SettlesIn graph rounds (graph.keep sound) left) :
      SettlesIn graph (rounds + 1) sound left

theorem length_keep_add (sound : List TypeName) :
    (graph.keep sound).length + (graph.newlyBlocked sound).length = sound.length := by
  have hsplit := List.length_eq_length_filter_add (l := sound)
    (graph.isIndependent (graph.namesOutside sound))
  exact hsplit.symm

/-- Each round but the last drops a type, so there is at most one round more than types. -/
theorem exists_settlesIn (sound : List TypeName) :
    ∃ rounds ≤ sound.length + 1, graph.SettlesIn rounds sound (graph.settle sound) := by
  induction sound using WellFounded.induction (measure List.length).wf with
  | _ sound ih =>
    have hlength := graph.length_keep_add sound
    rw [settle_eq]
    by_cases hnone : graph.newlyBlocked sound = []
    · rw [hnone, List.length_nil] at hlength
      rw [if_neg (by omega)]
      exact ⟨1, by omega, .last hnone⟩
    · have hpos := List.length_pos_of_ne_nil hnone
      have hshorter : (graph.keep sound).length < sound.length := by omega
      rw [if_pos hshorter]
      obtain ⟨rounds, hrounds, hsettles⟩ := ih _ hshorter
      exact ⟨rounds + 1, by omega, .round hnone hsettles⟩

theorem length_namesOutside_le (names : List TypeName) :
    (graph.namesOutside names).length ≤ graph.nodes.size := by
  have hfilter : (graph.namesOutside names).length ≤ graph.names.length :=
    List.length_filter_le _ _
  have hnames : graph.names.length = graph.nodes.size := by simp [TypeGraph.names]
  omega

/-! ### Lists that contain what has to be blocked -/

/-- What a list of blocked types has to contain: the types with findings, and each object that
depends on a type of the list. -/
structure BlocksEnough (asm : Assembly) (mapMode : Bool) (graph : TypeGraph)
    (blocked : List TypeName) : Prop where
  finding : ∀ node ∈ graph.nodes, graph.findingsOf asm mapMode node ≠ [] → node.name ∈ blocked
  dependent : ∀ node ∈ graph.nodes, node.kind.isObject = true →
    graph.blockedReferences blocked node ≠ [] → node.name ∈ blocked

/-- A list that contains what has to be blocked contains all blocked types. -/
theorem Blocked.mem {blocked : List TypeName} (hdistinct : graph.names.Nodup)
    (henough : BlocksEnough asm mapMode graph blocked) {name : TypeName}
    (h : Blocked asm mapMode graph name) : name ∈ blocked := by
  have hdepends : ∀ {name node}, graph.node? name = some node →
      graph.DependsOn (· ∈ blocked) node → name ∈ blocked := by
    intro name node hnode hdepends
    obtain ⟨hmem, rfl⟩ := (node?_eq_some_iff hdistinct).mp hnode
    refine henough.dependent node hmem hdepends.1 fun hnil => ?_
    exact blockedReferences_eq_nil_iff.mp hnil hdepends
  -- Along the reasons for a type to be blocked.
  induction h with
  | finding hnode hfinding =>
    obtain ⟨hmem, rfl⟩ := (node?_eq_some_iff hdistinct).mp hnode
    exact henough.finding _ hmem hfinding
  | base hnode hobject hbase _ ih =>
    exact hdepends hnode ⟨hobject, .inl ⟨_, hbase, ih⟩⟩
  | member hnode hobject hm hformatter hclosed hpasses _ ih =>
    exact hdepends hnode ⟨hobject, .inr ⟨_, hm, hformatter, hclosed, _, hpasses, ih⟩⟩

/-- The list of exactly the blocked types contains what has to be blocked. -/
theorem blocksEnough_of_iff {blocked : List TypeName} (hdistinct : graph.names.Nodup)
    (hblocked : ∀ name, name ∈ blocked ↔ Blocked asm mapMode graph name) :
    BlocksEnough asm mapMode graph blocked where
  finding node hnode hfinding :=
    (hblocked _).mpr (.finding ((node?_eq_some_iff hdistinct).mpr ⟨hnode, rfl⟩) hfinding)
  dependent node hnode _ hreferences := by
    have hdepends : graph.DependsOn (· ∈ blocked) node := by
      by_contra hnot
      exact hreferences (blockedReferences_eq_nil_iff.mpr hnot)
    refine (hblocked _).mpr ?_
    exact .of_dependsOn ((node?_eq_some_iff hdistinct).mpr ⟨hnode, rfl⟩)
      (hdepends.mono fun name => (hblocked name).mp)

/-- A blocked node without a finding of its own depends on a blocked type. -/
theorem Blocked.dependsOn (hdistinct : graph.names.Nodup) {node : Node} (hnode : node ∈ graph.nodes)
    (hsound : graph.findingsOf asm mapMode node = [])
    (h : Blocked asm mapMode graph node.name) :
    graph.DependsOn (Blocked asm mapMode graph) node := by
  have hfound := (node?_eq_some_iff hdistinct).mpr ⟨hnode, rfl⟩
  have heq : ∀ {other}, graph.node? node.name = some other → other = node := by
    intro other hother
    rw [hfound] at hother
    exact (Option.some.inj hother).symm
  cases h with
  | finding hother hfinding =>
    obtain rfl := heq hother
    exact (hfinding hsound).elim
  | base hother hobject hbase hblocked =>
    obtain rfl := heq hother
    exact ⟨hobject, .inl ⟨_, hbase, hblocked⟩⟩
  | member hother hobject hm hformatter hclosed hpasses hblocked =>
    obtain rfl := heq hother
    exact ⟨hobject, .inr ⟨_, hm, hformatter, hclosed, _, hpasses, hblocked⟩⟩

end TypeGraph

/-! ### Findings of dependence -/

namespace Verdict

open TypeGraph

variable {s : Setting} {mapMode : Bool} {graph : TypeGraph}

/-- The flaw of an object that depends on a blocked type through a member or a base. -/
def dependenceFlaw (node : Node) : Option String → TypeName → Flaw
  | some member, target => .blockedMember node.name member target
  | none, base => .blockedBase node.name base

theorem dependenceFinding_eq (node : Node) : dependenceFinding node = fun (member, target) =>
    ⟨.invalidObject, node.name, member, [(dependenceFlaw node member target).message]⟩ := by
  funext ⟨member, target⟩
  cases member with
  | some member => rfl
  | none => rfl

/-- The nodes that are blocked only because of what they depend on. -/
def dependentNodes (asm : Assembly) (mapMode : Bool) (graph : TypeGraph) (verdict : Verdict) :
    List Node :=
  graph.nodes.toList.filter fun node =>
    verdict.isBlocked node.name && (graph.findingsOf asm mapMode node).isEmpty

/-- The findings of the nodes that are blocked only because of what they depend on: one for each
blocked type that they depend on, about the node and the member. -/
def dependenceFindings (asm : Assembly) (mapMode : Bool) (graph : TypeGraph) (verdict : Verdict) :
    List Finding :=
  (verdict.dependentNodes asm mapMode graph).flatMap fun node =>
    (graph.blockedReferences verdict.blocked node).map fun (member, target) =>
      ⟨.invalidObject, node.name, member, [(dependenceFlaw node member target).message]⟩

/-- What a verdict has to be to report on a graph. -/
structure Reports (asm : Assembly) (mapMode : Bool) (graph : TypeGraph) (verdict : Verdict) :
    Prop where
  inOrder : verdict.blocked.Sublist graph.names
  settled : ∃ rounds ≤ graph.nodes.size + 1, ∃ sound,
    graph.SettlesIn rounds (graph.namesOutside (faulty asm mapMode graph)) sound ∧
      verdict.blocked = graph.namesOutside sound
  enough : BlocksEnough asm mapMode graph verdict.blocked
  least : ∀ blocked, BlocksEnough asm mapMode graph blocked → verdict.blocked ⊆ blocked
  distinct : verdict.findings.Nodup
  /-- Of the same findings the first is kept. -/
  findings : verdict.findings = (graph.nodes.toList.flatMap (graph.findingsOf asm mapMode) ++
    verdict.dependenceFindings asm mapMode graph).eraseDups
  /-- A node that is blocked only because of what it depends on has a finding. -/
  reported : ∀ node ∈ verdict.dependentNodes asm mapMode graph, ∃ member target,
    (member, target) ∈ graph.blockedReferences verdict.blocked node ∧
      ⟨.invalidObject, node.name, member, [(dependenceFlaw node member target).message]⟩ ∈
        verdict.findings
  clean : verdict.findings = [] ↔ verdict.blocked = []

variable {asm : Assembly}

theorem mem_dependentNodes_iff {verdict : Verdict} {node : Node} :
    node ∈ verdict.dependentNodes asm mapMode graph ↔ node ∈ graph.nodes ∧
      node.name ∈ verdict.blocked ∧ graph.findingsOf asm mapMode node = [] := by
  rw [dependentNodes, List.mem_filter, Array.mem_toList_iff, Bool.and_eq_true, isBlocked,
    List.contains_iff_mem, List.isEmpty_iff]

theorem mem_faulty_name_iff (hdistinct : graph.names.Nodup) {node : Node}
    (hnode : node ∈ graph.nodes) :
    node.name ∈ faulty asm mapMode graph ↔ graph.findingsOf asm mapMode node ≠ [] := by
  rw [mem_faulty_iff]
  constructor
  · rintro ⟨other, hother, hname, hfinding⟩
    have hsame := (node?_eq_some_iff hdistinct).mpr ⟨hother, hname⟩
    rw [(node?_eq_some_iff hdistinct).mpr ⟨hnode, rfl⟩, Option.some.injEq] at hsame
    rwa [hsame]
  · intro hfinding
    exact ⟨node, hnode, rfl, hfinding⟩

theorem findings_ofGraph (hdistinct : graph.names.Nodup) :
    (ofGraph asm mapMode graph).findings =
      (graph.nodes.toList.flatMap (graph.findingsOf asm mapMode) ++
        (ofGraph asm mapMode graph).dependenceFindings asm mapMode graph).eraseDups := by
  have hdependent : (graph.nodes.toList.filter fun node =>
      (ofGraph asm mapMode graph).blocked.contains node.name &&
        !(faulty asm mapMode graph).contains node.name) =
      (ofGraph asm mapMode graph).dependentNodes asm mapMode graph := by
    apply List.filter_congr
    intro node hnode
    have hfaulty : node.name ∈ faulty asm mapMode graph ↔ graph.findingsOf asm mapMode node ≠ [] :=
      mem_faulty_name_iff hdistinct (Array.mem_toList_iff.mp hnode)
    rw [isBlocked, Bool.eq_iff_iff, Bool.and_eq_true, Bool.and_eq_true, Bool.not_eq_true',
      ← Bool.not_eq_true, List.contains_iff_mem, List.contains_iff_mem, hfaulty, not_not,
      List.isEmpty_iff]
  change (_ ++ ((graph.nodes.toList.filter fun node =>
      (ofGraph asm mapMode graph).blocked.contains node.name &&
        !(faulty asm mapMode graph).contains node.name).map fun node =>
      (graph.blockedReferences (ofGraph asm mapMode graph).blocked node).map
        (dependenceFinding node)).flatten).eraseDups = _
  rw [hdependent, ← List.flatMap_def, ← List.flatMap_def, dependenceFindings]
  simp only [dependenceFinding_eq]

section

variable (hg : Complete s graph)

include hg

theorem mem_blocked_iff {name : TypeName} :
    name ∈ (ofGraph s.assembly mapMode graph).blocked ↔ Blocked s.assembly mapMode graph name := by
  rw [← hg.isBlocked_iff, isBlocked, List.contains_iff_mem]

/-- A node that is blocked only because of what it depends on gets a finding for it. -/
theorem exists_dependenceFinding {node : Node}
    (h : node ∈ (ofGraph s.assembly mapMode graph).dependentNodes s.assembly mapMode graph) :
    ∃ member target,
      (member, target) ∈ graph.blockedReferences (ofGraph s.assembly mapMode graph).blocked node ∧
        ⟨.invalidObject, node.name, member, [(dependenceFlaw node member target).message]⟩ ∈
          (ofGraph s.assembly mapMode graph).findings := by
  obtain ⟨hnode, hin, hsound⟩ := mem_dependentNodes_iff.mp h
  have hblocked := ((mem_blocked_iff hg).mp hin).dependsOn hg.distinct hnode hsound
  have hdepends := hblocked.mono fun _ => (mem_blocked_iff hg).mpr
  have hsome : graph.blockedReferences (ofGraph s.assembly mapMode graph).blocked node ≠ [] :=
    fun hnil => blockedReferences_eq_nil_iff.mp hnil hdepends
  obtain ⟨⟨member, target⟩, hreference⟩ := List.exists_mem_of_ne_nil _ hsome
  refine ⟨member, target, hreference, ?_⟩
  rw [findings_ofGraph hg.distinct, List.mem_eraseDups, List.mem_append]
  exact .inr (List.mem_flatMap.mpr ⟨node, h, List.mem_map.mpr ⟨_, hreference, rfl⟩⟩)

theorem blocked_eq_nil_of_findingsOf
    (h : ∀ node ∈ graph.nodes.toList, graph.findingsOf s.assembly mapMode node = []) :
    (ofGraph s.assembly mapMode graph).blocked = [] := by
  refine List.eq_nil_iff_forall_not_mem.mpr fun name hin => ?_
  exact not_blocked_of_findingsOf h name ((mem_blocked_iff hg).mp hin)

theorem findings_eq_nil_iff : (ofGraph s.assembly mapMode graph).findings = [] ↔
    (ofGraph s.assembly mapMode graph).blocked = [] := by
  rw [findings_ofGraph hg.distinct, eraseDups_eq_nil_iff, List.append_eq_nil_iff,
    List.flatMap_eq_nil_iff]
  constructor
  · exact fun hnone => blocked_eq_nil_of_findingsOf hg hnone.1
  · intro hnone
    constructor
    · intro node hnode
      by_contra hfinding
      have hfound := (node?_eq_some_iff hg.distinct).mpr ⟨Array.mem_toList_iff.mp hnode, rfl⟩
      have hin := (mem_blocked_iff hg).mpr (.finding hfound hfinding)
      simp [hnone] at hin
    · apply List.flatMap_eq_nil_iff.mpr
      intro node hnode
      have hin := (mem_dependentNodes_iff.mp hnode).2.1
      simp [hnone] at hin

end

/-- In a loaded assembly the verdict on the graph of a declaration reports on the graph. -/
theorem ofGraph_reports {documents : List Document}
    (hload : Assembly.load documents = .ok s.assembly) {control : RunControl} {root : Symbol}
    (hroot : root.index < s.assembly.defs.size) (hgraph : s.graphOf control root = .ok graph)
    (mapMode : Bool) :
    Reports s.assembly mapMode graph (ofGraph s.assembly mapMode graph) := by
  have hg := complete_of_graphOf (Assembly.wellFormed_of_load hload) hroot hgraph
  constructor
  case inOrder => exact List.filter_sublist
  case settled =>
    obtain ⟨rounds, hrounds, hsettles⟩ :=
      graph.exists_settlesIn (graph.namesOutside (faulty s.assembly mapMode graph))
    have hlength := graph.length_namesOutside_le (faulty s.assembly mapMode graph)
    exact ⟨rounds, by omega, _, hsettles, rfl⟩
  case enough => exact blocksEnough_of_iff hg.distinct fun _ => mem_blocked_iff hg
  case least =>
    intro blocked henough name hin
    exact ((mem_blocked_iff hg).mp hin).mem hg.distinct henough
  case distinct =>
    rw [findings_ofGraph hg.distinct]
    exact nodup_eraseDups _
  case findings => exact findings_ofGraph hg.distinct
  case reported => exact fun _ => exists_dependenceFinding hg
  case clean => exact findings_eq_nil_iff hg

/-! ### A faulty item in a list -/

/-- A class with a list of items, and the class of items, whose member has no key. -/
def itemDocument : Document where
  types := [
    { name := "App.Holder", kind := .concreteClass,
      attributes := [.bare "MessagePack.MessagePackObjectAttribute"],
      members := [
        { name := "Items", type := some "System.Collections.Generic.List<App.Item>",
          attributes := [.full "MessagePack.KeyAttribute" [.value (.number (.integer 0))]] }] },
    { name := "App.Item", kind := .concreteClass,
      attributes := [.bare "MessagePack.MessagePackObjectAttribute"],
      members := [{ name := "Loose", type := some "System.Int32" }] }]

def itemDefs : List TypeDef := [
  { name := "App.Holder", kind := .concreteClass, generics := [], base := none, underlying := none,
    attributes := [⟨⟨90⟩, []⟩],
    members := [
      { name := "Items", kind := .property, type := some (.named ⟨32⟩ [.named ⟨97⟩ []]),
        params := [], access := .everyone, isStatic := false,
        attributes := [⟨⟨91⟩, [.int 0]⟩] }] },
  { name := "App.Item", kind := .concreteClass, generics := [], base := none, underlying := none,
    attributes := [⟨⟨90⟩, []⟩],
    members := [
      { name := "Loose", kind := .property, type := some (.named ⟨5⟩ []), params := [],
        access := .everyone, isStatic := false, attributes := [] }] }]

def itemSetting : Setting := .ofDefs itemDefs {}

/-- The class with the list, the list, the class of items and the type of their member. -/
def itemGraph : TypeGraph :=
  ⟨#[itemSetting.nodeOf (.named ⟨96⟩ []), itemSetting.nodeOf (.named ⟨32⟩ [.named ⟨97⟩ []]),
    itemSetting.nodeOf (.named ⟨97⟩ []), itemSetting.nodeOf (.named ⟨5⟩ [])]⟩

theorem ofGraph_item_reports : Assembly.load [itemDocument] = .ok itemSetting.assembly ∧
    Setting.of? itemSetting.assembly [] {} = some itemSetting ∧
    96 < itemSetting.assembly.defs.size ∧ itemSetting.graphOf {} ⟨96⟩ = .ok itemGraph ∧
    faulty itemSetting.assembly false itemGraph = [.named "App.Item" []] ∧
    Reports itemSetting.assembly false itemGraph
      (ofGraph itemSetting.assembly false itemGraph) := by
  obtain ⟨hload, hroles⟩ : Assembly.load [itemDocument] = .ok itemSetting.assembly ∧
      Setting.of? itemSetting.assembly [] {} = some itemSetting :=
    Setting.loads_ofDefs (by decide +kernel) (toOption_eq_some_iff.mp (by decide +kernel)) {}
  have hsymbol : 96 < itemSetting.assembly.defs.size := by decide +kernel
  have hgraph : itemSetting.graphOf {} ⟨96⟩ = .ok itemGraph :=
    graphOf_eq_ok rfl (by decide +kernel)
  exact ⟨hload, hroles, hsymbol, hgraph, by decide +kernel,
    ofGraph_reports hload hsymbol hgraph false⟩

end Verdict

namespace Setting

variable {s : Setting} {a : Analysis}

/-- Without findings of the nodes by themselves there are none of dependence either. -/
theorem Analyzed.findings_eq_nil (h : Analyzed s a) (hnone : ∀ node ∈ a.graph.nodes.toList,
    a.graph.findingsOf s.assembly s.options.mapMode node = []) : a.verdict.findings = [] := by
  rw [h.verdict]
  exact (Verdict.findings_eq_nil_iff h.complete).mpr
    (Verdict.blocked_eq_nil_of_findingsOf h.complete hnone)

end Setting

end FormatterPlan
