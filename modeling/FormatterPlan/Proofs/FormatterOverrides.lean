import FormatterPlan.Proofs.AnalysisResult
import FormatterPlan.Proofs.LeastBlocked
import FormatterPlan.Proofs.PreludeRoles

/-! Declarations that name a formatter for themselves.  Such a formatter goes before everything that
the kind of a type would give it, but not before the verdict: a type is blocked by the rules for
objects and unions whether or not it names a formatter. -/

namespace FormatterPlan

/-- Whether the declaration of a node names a formatter that is one for the type, by attributes
without defects.  What another resolver formats is left aside. -/
structure Node.NamesFormatter (asm : Assembly) (node : Node) (custom : NamedType) : Prop where
  notAssumed : node.kind ≠ .assumed
  formatter : node.formatter = some custom
  accepted : asm.isFormatterOf custom.type node.self.type = true
  defects : node.defects = []

namespace TypeGraph

variable {asm : Assembly} {mapMode : Bool} {graph : TypeGraph} {node : Node}

def contentFindings (asm : Assembly) (mapMode : Bool) (graph : TypeGraph) (node : Node) :
    List Finding :=
  (if node.kind.isObject then
    graph.markingFindings node ++ keyFindings node ++ nullKeyFindings node ++
      uniquenessFindings mapMode node ++ graph.memberFormatterFindings asm node
  else []) ++
  if node.kind.isUnion then graph.variantFindings node else []

theorem contentFindings_eq_nil (hobject : node.kind.isObject = false)
    (hvariants : node.kind.isUnion = true → graph.variantFindings node = []) :
    graph.contentFindings asm mapMode node = [] := by
  rw [contentFindings, hobject]
  cases hunion : node.kind.isUnion with
  | false => rfl
  | true => simp [hvariants hunion]

/-- Where a formatter is named well, nothing is found but by the rules for objects and unions. -/
theorem findingsOf_of_namesFormatter {custom : NamedType} (h : node.NamesFormatter asm custom) :
    graph.findingsOf asm mapMode node = graph.contentFindings asm mapMode node := by
  have hshape : formatterFindings asm node = [] := by
    rw [formatterFindings, h.formatter]
    exact if_pos h.accepted
  rw [findingsOf, hshape, h.defects, List.map_nil, List.append_nil, List.append_nil,
    contentFindings]

end TypeGraph

namespace Setting

variable {s : Setting} {control : RunControl} {root : Symbol} {a : Analysis}

/-- A type whose declaration names a formatter well is given that formatter, whatever its kind, when
the rules for objects and unions find nothing and, if it is an object, it depends on no blocked
type.  A union may have blocked variants, and other kinds of types have no such rules.  A type for
which the rules find something is blocked and has no formatter. -/
theorem strategyOf?_of_namesFormatter {documents : List Document}
    (hload : Assembly.load documents = .ok s.assembly) (hroot : root.index < s.assembly.defs.size)
    (hanalyze : s.analyze control root = .ok a) {node : Node} (hnode : node ∈ a.graph.nodes)
    {custom : NamedType} (hcustom : node.NamesFormatter s.assembly custom) :
    (a.graph.contentFindings s.assembly s.options.mapMode node = [] →
      ¬ a.graph.DependsOn (fun name => a.verdict.isBlocked name = true) node →
      a.strategyOf? node.name = some (.custom custom.name)) ∧
    (node.kind.isObject = false →
      (node.kind.isUnion = true → a.graph.variantFindings node = []) →
      a.strategyOf? node.name = some (.custom custom.name)) ∧
    (a.graph.contentFindings s.assembly s.options.mapMode node ≠ [] →
      a.verdict.isBlocked node.name = true ∧ a.strategyOf? node.name = some .unresolved) := by
  have h := analyzed_of_analyze hload hroot hanalyze
  have hstrategy := h.strategyOf?_of_formatter hnode hcustom.formatter
  have hfindings : a.graph.findingsOf s.assembly s.options.mapMode node =
      a.graph.contentFindings s.assembly s.options.mapMode node :=
    TypeGraph.findingsOf_of_namesFormatter hcustom
  have hsound : a.graph.contentFindings s.assembly s.options.mapMode node = [] →
      ¬ a.graph.DependsOn (fun name => a.verdict.isBlocked name = true) node →
      a.strategyOf? node.name = some (.custom custom.name) := by
    -- Without a finding of its own the node would be blocked by what it depends on.
    intro hnone hindependent
    rw [hstrategy, if_neg]
    intro hblocked
    have hdepends := (h.isBlocked_iff.mp hblocked).dependsOn h.complete.distinct hnode
      (hfindings.trans hnone)
    exact hindependent (hdepends.mono fun _ => h.isBlocked_iff.mpr)
  refine ⟨hsound, fun hobject hvariants => ?_, fun hsome => ?_⟩
  · -- Only objects depend on other types.
    refine hsound (TypeGraph.contentFindings_eq_nil hobject hvariants) fun hdepends => ?_
    rw [hdepends.1] at hobject
    cases hobject
  · have hblocked := h.isBlocked_of_findingsOf hnode (hfindings.symm ▸ hsome)
    exact ⟨hblocked, by rw [hstrategy, if_pos hblocked]⟩

/-- Two classes that name a formatter for themselves.  The member of the first has no key. -/
def purseDocument : Document where
  types := [
    { name := "App.Money", kind := .concreteClass,
      attributes := [
        .bare "MessagePack.MessagePackObjectAttribute",
        .full "MessagePack.MessagePackFormatterAttribute" [.typeOf "App.Copier<App.Money>"]],
      members := [{ name := "Amount", type := some "System.Int32" }] },
    { name := "App.Purse", kind := .concreteClass,
      attributes := [
        .bare "MessagePack.MessagePackObjectAttribute",
        .full "MessagePack.MessagePackFormatterAttribute" [.typeOf "App.Copier<App.Purse>"]],
      members := [
        { name := "Coins", type := some "System.Int32",
          attributes := [.full "MessagePack.KeyAttribute" [.value (.number (.integer 0))]] }] },
    { name := "App.Copier", kind := .concreteClass, generics := ["T"],
      members := [
        { name := "Serialize", kind := .method, params := ["T"] },
        { name := "Deserialize", kind := .method, type := some "T" }] }]

def purseDefs : List TypeDef := [
  { name := "App.Money", kind := .concreteClass, generics := [], base := none, underlying := none,
    attributes := [⟨⟨90⟩, []⟩, ⟨⟨95⟩, [.type (.named ⟨98⟩ [.named ⟨96⟩ []])]⟩],
    members := [
      { name := "Amount", kind := .property, type := some (.named ⟨5⟩ []), params := [],
        access := .everyone, isStatic := false, attributes := [] }] },
  { name := "App.Purse", kind := .concreteClass, generics := [], base := none, underlying := none,
    attributes := [⟨⟨90⟩, []⟩, ⟨⟨95⟩, [.type (.named ⟨98⟩ [.named ⟨97⟩ []])]⟩],
    members := [
      { name := "Coins", kind := .property, type := some (.named ⟨5⟩ []), params := [],
        access := .everyone, isStatic := false, attributes := [⟨⟨91⟩, [.int 0]⟩] }] },
  { name := "App.Copier", kind := .concreteClass, generics := ["T"], base := none,
    underlying := none, attributes := [],
    members := [
      { name := "Serialize", kind := .method, type := none, params := [.param 0 "T"],
        access := .everyone, isStatic := false, attributes := [] },
      { name := "Deserialize", kind := .method, type := some (.param 0 "T"), params := [],
        access := .everyone, isStatic := false, attributes := [] }] }]

def purseSetting : Setting := .ofDefs purseDefs {}

def purseNode (symbol : Symbol) : Node := purseSetting.nodeOf (.named symbol [])

def copierOf (symbol : Symbol) : NamedType := purseSetting.named (.named ⟨98⟩ [.named symbol []])

def purseGraph (symbol : Symbol) : TypeGraph :=
  ⟨#[purseNode symbol, purseSetting.nodeOf (.named ⟨5⟩ [])]⟩

theorem loads_purseDocument : Assembly.load [purseDocument] = .ok purseSetting.assembly ∧
    of? purseSetting.assembly [] {} = some purseSetting :=
  loads_ofDefs (by decide +kernel) (toOption_eq_some_iff.mp (by decide +kernel)) {}

theorem namesFormatter_purse {symbol : Symbol} (h : symbol = ⟨96⟩ ∨ symbol = ⟨97⟩) :
    (purseNode symbol).NamesFormatter purseSetting.assembly (copierOf symbol) := by
  rcases h with rfl | rfl
  all_goals exact ⟨by decide +kernel, by decide +kernel, by decide +kernel, by decide +kernel⟩

theorem exists_analyze_purse {symbol : Symbol} (h : symbol = ⟨96⟩ ∨ symbol = ⟨97⟩) :
    ∃ a, purseSetting.analyze {} symbol = .ok a ∧ a.graph = purseGraph symbol ∧
      purseNode symbol ∈ a.graph.nodes := by
  have hgraph : purseSetting.graphOf {} symbol = .ok (purseGraph symbol) := by
    rcases h with rfl | rfl
    all_goals exact TypeGraph.graphOf_eq_ok rfl (by decide +kernel)
  obtain ⟨a, hanalyze, ha⟩ := exists_analyze_eq_ok hgraph
  refine ⟨a, hanalyze, ha, ?_⟩
  rw [ha, purseGraph]
  exact Array.mem_iff_getElem?.mpr ⟨0, rfl⟩

/-- The second class is given its formatter: it keeps the rules and depends on no class. -/
theorem purse_isCustom : Assembly.load [purseDocument] = .ok purseSetting.assembly ∧
    97 < purseSetting.assembly.defs.size ∧ ∃ a, purseSetting.analyze {} ⟨97⟩ = .ok a ∧
      purseNode ⟨97⟩ ∈ a.graph.nodes ∧
      (purseNode ⟨97⟩).NamesFormatter purseSetting.assembly (copierOf ⟨97⟩) ∧
      a.strategyOf? (purseNode ⟨97⟩).name = some (.custom (copierOf ⟨97⟩).name) := by
  have hcustom := namesFormatter_purse (.inr rfl)
  obtain ⟨a, hanalyze, ha, hnode⟩ := exists_analyze_purse (.inr rfl)
  have hsize : 97 < purseSetting.assembly.defs.size := by decide +kernel
  refine ⟨loads_purseDocument.1, hsize, a, hanalyze, hnode, hcustom,
    (strategyOf?_of_namesFormatter loads_purseDocument.1 hsize hanalyze hnode hcustom).1 ?_ ?_⟩
  · rw [ha]
    decide +kernel
  · intro hdepends
    have h := analyzed_of_analyze loads_purseDocument.1 hsize hanalyze
    have hnone : ∀ node ∈ a.graph.nodes.toList,
        a.graph.findingsOf purseSetting.assembly purseSetting.options.mapMode node = [] := by
      rw [ha]
      decide +kernel
    obtain ⟨-, ⟨base, -, hblocked⟩ | ⟨m, -, -, -, target, -, hblocked⟩⟩ := hdepends
    all_goals exact TypeGraph.not_blocked_of_findingsOf hnone _ (h.isBlocked_iff.mp hblocked)

/-- The first class is not given its formatter: its member has no key. -/
theorem money_isUnresolved : Assembly.load [purseDocument] = .ok purseSetting.assembly ∧
    of? purseSetting.assembly [] {} = some purseSetting ∧
    ∃ a, purseSetting.analyze {} ⟨96⟩ = .ok a ∧ purseNode ⟨96⟩ ∈ a.graph.nodes ∧
      (purseNode ⟨96⟩).NamesFormatter purseSetting.assembly (copierOf ⟨96⟩) ∧
      a.strategyOf? (purseNode ⟨96⟩).name = some .unresolved ∧
      a.strategyOf? (purseNode ⟨96⟩).name ≠ some (.custom (copierOf ⟨96⟩).name) := by
  have hcustom := namesFormatter_purse (.inl rfl)
  obtain ⟨a, hanalyze, ha, hnode⟩ := exists_analyze_purse (.inl rfl)
  have h := analyzed_of_analyze loads_purseDocument.1 (by decide +kernel) hanalyze
  have hunresolved : a.strategyOf? (purseNode ⟨96⟩).name = some .unresolved := by
    rw [h.strategyOf?_of_formatter hnode hcustom.formatter, if_pos]
    refine h.isBlocked_of_findingsOf hnode ?_
    rw [ha]
    decide +kernel
  refine ⟨loads_purseDocument.1, loads_purseDocument.2, a, hanalyze, hnode, hcustom,
    hunresolved, ?_⟩
  rw [hunresolved]
  simp

end Setting

end FormatterPlan
