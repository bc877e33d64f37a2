import FormatterPlan.CommandLine.Run
import FormatterPlan.Proofs.LeastBlocked
import FormatterPlan.Proofs.Leaves
import FormatterPlan.Proofs.PreludeRoles
import FormatterPlan.Proofs.Tables

/-! Plans without findings.  A declaration that may be a root is marked, and the declarations with
fixed formatters are not, so the root is an object, a union or a collection.  Without findings
nothing is blocked, and such a root has a formatter even if it comes back to itself. -/

namespace FormatterPlan

namespace Setting

variable {s : Setting}

/-! ### Roots -/

/-- A declaration that may be a root is marked as an object or a union. -/
theorem markedKind_of_isRootCandidate {symbol : Symbol} {d : TypeDef}
    (hd : s.assembly.def? symbol = some d) (hcandidate : s.isRootCandidate symbol = true)
    (isOpen : Bool) : d.kind ≠ .enumeration ∧ (s.markedKind d isOpen = .union isOpen ∨
      ∃ keysAsNames, s.markedKind d isOpen = .object keysAsNames isOpen) := by
  unfold isRootCandidate at hcandidate
  rw [hd] at hcandidate
  unfold markedKind
  cases hunion : (Roles.find? s.roles.union d.attributes).isSome <;>
    cases hobject : s.roles.objectAttribute? d.attributes <;>
      cases hkind : d.kind <;> simp_all

theorem attributes_ne_nil_of_isRootCandidate {symbol : Symbol} {d : TypeDef}
    (hd : s.assembly.def? symbol = some d) (hcandidate : s.isRootCandidate symbol = true) :
    d.attributes ≠ [] := by
  intro hnil
  unfold isRootCandidate at hcandidate
  rw [hd] at hcandidate
  cases hkind : d.kind <;>
    simp [hnil, hkind, Roles.objectAttribute?, Roles.find?] at hcandidate

/-- A declaration that may be a root, is not formatted elsewhere and has no parameters is an object,
a union or a collection. -/
theorem kindOf_of_isRootCandidate {documents : List Document} {hidden : List String}
    {options : Options} (hload : Assembly.load documents = .ok s.assembly)
    (hsetting : of? s.assembly hidden options = some s) {symbol : Symbol} {d : TypeDef}
    (hd : s.assembly.def? symbol = some d) (hcandidate : s.isRootCandidate symbol = true)
    (hassumed : s.isAssumed d = false) :
    s.kindOf (.named symbol []) = .union false ∨
      (∃ shape, s.kindOf (.named symbol []) = .collection shape) ∨
        ∃ keysAsNames, s.kindOf (.named symbol []) = .object keysAsNames false := by
  obtain ⟨henum, hmarked⟩ := markedKind_of_isRootCandidate hd hcandidate false
  have hattributes := attributes_ne_nil_of_isRootCandidate hd hcandidate
  rw [kindOf, declaredKind, hd]
  dsimp only
  rw [hassumed, if_neg Bool.false_ne_true]
  cases hbuiltin : s.roles.builtin? symbol with
  | some b => exact (hattributes (attributesOf_builtin hload hsetting hbuiltin hd)).elim
  | none =>
    cases s.roles.collection? symbol with
    | some shape => exact .inr (.inl ⟨shape, rfl⟩)
    | none =>
      dsimp only
      rw [if_neg henum]
      exact hmarked.imp_right .inr

end Setting

/-! ### Roots with formatters -/

theorem StrategySetting.collectionStrategy_nil (graph : TypeGraph) (shape : CollectionShape) :
    collectionStrategy graph shape [] = .collection shape.adapter shape.backing [] := by
  unfold collectionStrategy
  cases shape.byteFormatter <;> rfl

namespace Setting

variable {s : Setting}

namespace Analyzed

variable {a : Analysis}

/-- Where nothing is blocked, a root without parameters has a strategy that is tabled. -/
theorem exists_tabled (h : Analyzed s a) {symbol : Symbol} (ht : HasNode s a (.named symbol []))
    (hsound : ∀ name, ¬ TypeGraph.Blocked s.assembly s.options.mapMode a.graph name)
    (hkind : s.kindOf (.named symbol []) = .union false ∨
      (∃ shape, s.kindOf (.named symbol []) = .collection shape) ∨
        ∃ keysAsNames, s.kindOf (.named symbol []) = .object keysAsNames false) :
    ∃ strategy, a.strategyOf? (s.assembly.typeName (.named symbol [])) = some strategy ∧
      strategy.isTabled = true := by
  have helements : (s.nodeOf (.named symbol [])).elements = [] := by
    rw [nodeOf_elements]
    rcases hkind with hkind | ⟨shape, hkind⟩ | ⟨keysAsNames, hkind⟩ <;>
      rw [hkind] <;> rfl
  have hbare : ¬ s.IsBare (.named symbol []) := by
    rintro (⟨hleaf, -⟩ | ⟨-, -, helement, -⟩)
    · rcases hkind with hkind | ⟨shape, hkind⟩ | ⟨keysAsNames, hkind⟩ <;> simp [hkind] at hleaf
    · simp [helements] at helement
  have hblocked := h.isBlocked_eq_false_iff.mpr (hsound (s.assembly.typeName (.named symbol [])))
  refine ⟨_, h.strategyOf?_eq_fullStrategy ht hsound hbare, ?_⟩
  rw [StrategySetting.fullStrategy, hblocked, if_neg Bool.false_ne_true]
  cases (s.nodeOf (.named symbol [])).formatter with
  | some custom => rfl
  | none =>
    rw [nodeOf_kind]
    rcases hkind with hkind | ⟨shape, hkind⟩ | ⟨keysAsNames, hkind⟩
    · rw [hkind]
      rfl
    · rw [hkind, helements]
      dsimp only
      rw [List.map_nil, StrategySetting.collectionStrategy_nil]
      rfl
    · rw [hkind]
      dsimp only
      rw [StrategySetting.objectStrategy]
      dsimp only
      split <;> rfl

end Analyzed

/-- Where there are no findings nothing is blocked. -/
theorem not_blocked_of_verdict {a : Analysis} (h : Analyzed s a) (hclean : a.verdict.findings = [])
    (name : TypeName) : ¬ TypeGraph.Blocked s.assembly s.options.mapMode a.graph name := by
  rw [h.verdict, verdictOn, Verdict.findings_eq_nil_iff h.complete] at hclean
  intro hblocked
  have hin := (Verdict.mem_blocked_iff h.complete).mpr hblocked
  simp [hclean] at hin

/-- The node of a root without parameters. -/
theorem hasNode_root {documents : List Document} (hload : Assembly.load documents = .ok s.assembly)
    {control : RunControl} {root : Symbol} (hroot : root.index < s.assembly.defs.size)
    (hgenerics : s.assembly.genericsOf root = []) {a : Analysis}
    (hanalyze : s.analyze control root = .ok a) :
    Analyzed.HasNode s a (TypeGraph.rootType s.assembly root) ∧
      TypeGraph.rootType s.assembly root = .named root [] := by
  have hwf := Assembly.wellFormed_of_load hload
  have htype : TypeGraph.rootType s.assembly root = .named root [] := by
    rw [TypeGraph.rootType, hgenerics]
    rfl
  have hfits : (TypeGraph.rootType s.assembly root).Fits s.assembly Ty.AnyParam :=
    rootType_fits hroot
  obtain ⟨last, -, hexplored⟩ := TypeGraph.explored_of_graphOf hwf hroot (analyze_ok hanalyze).1
  have hnode := Array.mem_iff_getElem?.mpr ⟨0, hexplored.rooted⟩
  refine ⟨⟨hfits, by rw [htype]; rfl, ?_⟩, htype⟩
  exact (TypeGraph.node?_eq_some_iff hexplored.distinct).mpr ⟨hnode, nodeOf_name⟩

/-! ### Plans -/

/-- Putting roots in order loses none. -/
theorem mem_orderedRoots_iff {roots : List Symbol} {symbol : Symbol} :
    symbol ∈ s.orderedRoots roots ↔ symbol ∈ roots := by
  rw [orderedRoots, mem_eraseReps_iff, List.mem_mergeSort]

theorem plan_ok {control : RunControl} {roots : List Symbol} {plan : Plan}
    (h : s.plan control roots = .ok plan) : ∃ analyses,
      (s.orderedRoots roots).mapM (s.analyze control) = .ok analyses ∧
        plan.findings = (analyses.flatMap (·.verdict.findings)).eraseDups ∧
        plan.table = .merge (analyses.map (·.table)) := by
  unfold Setting.plan at h
  obtain ⟨analyses, hanalyses, h⟩ := bind_eq_ok_iff.mp h
  obtain rfl := Except.ok.inj h
  exact ⟨analyses, hanalyses, rfl, rfl⟩

/-- The strategies in the table of a plan are tabled, whatever analyses they come from. -/
theorem isTabled_of_plan {control : RunControl} {roots : List Symbol} {plan : Plan}
    (h : s.plan control roots = .ok plan) {name : TypeName} {entry : TableEntry}
    (hentry : plan.table.find? name = some entry) : entry.strategy.isTabled = true := by
  obtain ⟨analyses, hanalyses, -, htable⟩ := plan_ok h
  rw [htable, FormatterTable.find?_merge] at hentry
  obtain ⟨table, hmem, hfound⟩ := List.exists_of_findSome?_eq_some hentry
  obtain ⟨a, ha, rfl⟩ := List.mem_map.mp hmem
  have htables : ∀ a ∈ analyses, a.table = .ofGraph a.graph a.strategies :=
    forall_of_mapM hanalyses fun _ _ _ hanalyze => analyze_table hanalyze
  rw [htables a ha] at hfound
  exact FormatterTable.isTabled_of_find?_ofGraph hfound

/-- Whether a table has an entry for each root that needs one: a declaration without parameters that
may be a root and is not formatted elsewhere.  The entry is under the name of the root and has a
formatter. -/
def PlansRoots (s : Setting) (roots : List Symbol) (table : FormatterTable) : Prop :=
  ∀ symbol ∈ roots, ∀ d, s.assembly.def? symbol = some d → s.isRootCandidate symbol = true →
    d.generics = [] → s.isAssumed d = false → ∃ entry,
      table.find? (s.assembly.typeName (.named symbol [])) = some entry ∧
        entry.strategy.isTabled = true

/-- The entry of a root in the table of its own analysis. -/
theorem exists_find?_table {documents : List Document} {hidden : List String} {options : Options}
    (hload : Assembly.load documents = .ok s.assembly)
    (hsetting : of? s.assembly hidden options = some s) {control : RunControl} {symbol : Symbol}
    {a : Analysis} (hanalyze : s.analyze control symbol = .ok a) (hclean : a.verdict.findings = [])
    {d : TypeDef} (hd : s.assembly.def? symbol = some d)
    (hcandidate : s.isRootCandidate symbol = true) (hgenerics : d.generics = [])
    (hassumed : s.isAssumed d = false) :
    (a.table.find? (s.assembly.typeName (.named symbol []))).isSome = true := by
  have hsize : symbol.index < s.assembly.defs.size := (Array.getElem?_eq_some_iff.mp hd).1
  have hnone : s.assembly.genericsOf symbol = [] := by
    rw [Assembly.genericsOf, hd]
    exact hgenerics
  have h := analyzed_of_analyze hload hsize hanalyze
  obtain ⟨hnode, htype⟩ := hasNode_root hload hsize hnone hanalyze
  rw [htype] at hnode
  have hkind := kindOf_of_isRootCandidate hload hsetting hd hcandidate hassumed
  obtain ⟨strategy, hstrategy, htabled⟩ :=
    h.exists_tabled hnode (not_blocked_of_verdict h hclean) hkind
  rw [analyze_table hanalyze, h.find?_ofGraph, hstrategy, Option.filter_some, if_pos htabled]
  rfl

/-- In a loaded assembly a plan without findings has an entry for each root that needs one.  There
are no findings if the command that makes the plan ends with exit code 0. -/
theorem plansRoots_of_clean {documents : List Document} {hidden : List String} {options : Options}
    (hload : Assembly.load documents = .ok s.assembly)
    (hsetting : of? s.assembly hidden options = some s) {control : RunControl}
    {roots : List Symbol} {plan : Plan} (hplan : s.plan control roots = .ok plan)
    (hclean : plan.findings = [] ∨ ∃ output, (plan.outcome output).code = 0) :
    s.PlansRoots roots plan.table := by
  have hfindings : plan.findings = [] := by
    rcases hclean with hclean | ⟨output, hcode⟩
    · exact hclean
    · simpa [Plan.outcome] using hcode
  obtain ⟨analyses, hanalyses, heq, htable⟩ := plan_ok hplan
  rw [hfindings, eq_comm, eraseDups_eq_nil_iff, List.flatMap_eq_nil_iff] at heq
  intro symbol hsymbol d hd hcandidate hgenerics hassumed
  obtain ⟨a, ha, hanalyze⟩ := exists_of_mapM hanalyses (mem_orderedRoots_iff.mpr hsymbol)
  have hentry := exists_find?_table hload hsetting hanalyze (heq a ha) hd hcandidate hgenerics
    hassumed
  have hsome : (plan.table.find? (s.assembly.typeName (.named symbol []))).isSome = true := by
    rw [htable, FormatterTable.find?_merge, List.findSome?_isSome_iff]
    exact ⟨a.table, List.mem_map_of_mem ha, hentry⟩
  obtain ⟨entry, hfound⟩ := Option.isSome_iff_exists.mp hsome
  exact ⟨entry, hfound, isTabled_of_plan hplan hfound⟩

/-! ### A plan for two roots -/

/-- Roots whose graphs have no findings have a plan without findings. -/
theorem exists_plan_of_findingsOf {documents : List Document}
    (hload : Assembly.load documents = .ok s.assembly) {control : RunControl} {roots : List Symbol}
    (hroots : ∀ root ∈ roots, root.index < s.assembly.defs.size ∧
      ∃ graph, s.graphOf control root = .ok graph ∧ ∀ node ∈ graph.nodes.toList,
        graph.findingsOf s.assembly s.options.mapMode node = []) :
    ∃ plan, s.plan control roots = .ok plan ∧ plan.findings = [] := by
  obtain ⟨analyses, hanalyses⟩ : ∃ analyses,
      (s.orderedRoots roots).mapM (s.analyze control) = .ok analyses := by
    apply exists_mapM_eq_ok
    intro root hroot
    obtain ⟨-, graph, hgraph, -⟩ := hroots root (mem_orderedRoots_iff.mp hroot)
    obtain ⟨a, hanalyze, -⟩ := exists_analyze_eq_ok hgraph
    exact ⟨a, hanalyze⟩
  have hclean : ∀ a ∈ analyses, a.verdict.findings = [] := by
    refine forall_of_mapM (P := fun a => a.verdict.findings = []) hanalyses ?_
    intro root hroot a hanalyze
    obtain ⟨hsize, graph, hgraph, hfindings⟩ := hroots root (mem_orderedRoots_iff.mp hroot)
    obtain rfl : graph = a.graph := by
      rw [(analyze_ok hanalyze).1] at hgraph
      exact (Except.ok.inj hgraph).symm
    exact (analyzed_of_analyze hload hsize hanalyze).findings_eq_nil hfindings
  refine ⟨⟨(analyses.flatMap (·.verdict.findings)).eraseDups, .merge (analyses.map (·.table))⟩,
    ?_, ?_⟩
  · rw [Setting.plan, hanalyses]
    rfl
  · rw [eraseDups_eq_nil_iff, List.flatMap_eq_nil_iff]
    exact hclean

/-- A union of shapes, and a shape that is made of shapes. -/
def shapeDocument : Document where
  types := [
    { name := "App.Shape", kind := .interface,
      attributes := [
        .full "MessagePack.UnionAttribute"
          [.value (.number (.integer 0)), .typeOf "App.Group"]] },
    { name := "App.Group", kind := .concreteClass,
      attributes := [.bare "MessagePack.MessagePackObjectAttribute"],
      members := [
        { name := "Parts", type := some "System.Collections.Generic.List<App.Shape>",
          attributes := [.full "MessagePack.KeyAttribute" [.value (.number (.integer 0))]] }] }]

def shapeDefs : List TypeDef := [
  { name := "App.Shape", kind := .interface, generics := [], base := none, underlying := none,
    attributes := [⟨⟨94⟩, [.int 0, .type (.named ⟨97⟩ [])]⟩], members := [] },
  { name := "App.Group", kind := .concreteClass, generics := [], base := none, underlying := none,
    attributes := [⟨⟨90⟩, []⟩],
    members := [
      { name := "Parts", kind := .property, type := some (.named ⟨32⟩ [.named ⟨96⟩ []]),
        params := [], access := .everyone, isStatic := false,
        attributes := [⟨⟨91⟩, [.int 0]⟩] }] }]

def shapeSetting : Setting := .ofDefs shapeDefs {}

theorem loads_shapeDocument : Assembly.load [shapeDocument] = .ok shapeSetting.assembly ∧
    of? shapeSetting.assembly [] {} = some shapeSetting :=
  loads_ofDefs (by decide +kernel) (toOption_eq_some_iff.mp (by decide +kernel)) {}

/-- The types of `shapeDocument` from the union or from the class on. -/
def shapeGraph (types : List Ty) : TypeGraph := ⟨(types.map shapeSetting.nodeOf).toArray⟩

theorem exists_plan_shapes : ∃ plan,
    shapeSetting.plan {} [⟨97⟩, ⟨96⟩, ⟨97⟩] = .ok plan ∧ plan.findings = [] := by
  apply exists_plan_of_findingsOf loads_shapeDocument.1
  have hunion : shapeSetting.graphOf {} ⟨96⟩ = .ok
      (shapeGraph [.named ⟨96⟩ [], .named ⟨97⟩ [], .named ⟨32⟩ [.named ⟨96⟩ []]]) :=
    TypeGraph.graphOf_eq_ok rfl (by decide +kernel)
  have hclass : shapeSetting.graphOf {} ⟨97⟩ = .ok
      (shapeGraph [.named ⟨97⟩ [], .named ⟨32⟩ [.named ⟨96⟩ []], .named ⟨96⟩ []]) :=
    TypeGraph.graphOf_eq_ok rfl (by decide +kernel)
  intro root hroot
  simp only [List.mem_cons, List.not_mem_nil, or_false] at hroot
  rcases hroot with rfl | rfl | rfl
  · exact ⟨by decide +kernel, _, hclass, by decide +kernel⟩
  · exact ⟨by decide +kernel, _, hunion, by decide +kernel⟩
  · exact ⟨by decide +kernel, _, hclass, by decide +kernel⟩

theorem plansRoots_shapes : Assembly.load [shapeDocument] = .ok shapeSetting.assembly ∧
    of? shapeSetting.assembly [] {} = some shapeSetting ∧
    shapeSetting.isRootCandidate ⟨96⟩ = true ∧ shapeSetting.isRootCandidate ⟨97⟩ = true ∧
    ∃ plan, shapeSetting.plan {} [⟨97⟩, ⟨96⟩, ⟨97⟩] = .ok plan ∧ plan.findings = [] ∧
      shapeSetting.PlansRoots [⟨97⟩, ⟨96⟩, ⟨97⟩] plan.table := by
  obtain ⟨plan, hplan, hclean⟩ := exists_plan_shapes
  exact ⟨loads_shapeDocument.1, loads_shapeDocument.2, by decide +kernel, by decide +kernel, plan,
    hplan, hclean,
    plansRoots_of_clean loads_shapeDocument.1 loads_shapeDocument.2 hplan (.inl hclean)⟩

end Setting

end FormatterPlan
