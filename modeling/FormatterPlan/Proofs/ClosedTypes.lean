import FormatterPlan.Proofs.AnalysisResult
import FormatterPlan.Proofs.StoredTypes

/-! Closed types in graphs.  A stored type mentions no parameters but those of its declaration, and
a type that fits has an argument for each of them.  So whatever is made from a closed type is
closed: the types of its chain of bases, those of the members that it has from them, and the
formatters that these name.  In particular no parameter is ever named by the strategy of an
object. -/

namespace FormatterPlan

/-! ### Closed names -/

namespace TypeName

mutual

/-- Whether a name mentions no parameter. -/
def isClosed : TypeName → Bool
  | .named _ args => allClosed args
  | .array element _ => isClosed element
  | .param _ => false

def allClosed : List TypeName → Bool
  | [] => true
  | name :: names => isClosed name && allClosed names

end

theorem allClosed_eq_all (names : List TypeName) : allClosed names = names.all isClosed := by
  induction names with
  | nil => rfl
  | cons name names ih => rw [allClosed, ih, List.all_cons]

end TypeName

/-- The types that a planned member names: its own, and its formatter if that is not the one of the
type. -/
def PlannedMember.typeNames (m : PlannedMember) : List TypeName :=
  m.declared :: match m.formatter with
    | .ofType => []
    | .custom formatter => [formatter]

/-- The name of a type mentions a parameter when the type does. -/
theorem Assembly.isClosed_typeName {asm : Assembly} (t : Ty) :
    (asm.typeName t).isClosed = t.isClosed := by
  induction t using Ty.induction with
  | named symbol args ih =>
    rw [typeName_named, TypeName.isClosed, TypeName.allClosed_eq_all, Ty.isClosed_named,
      List.all_map, Bool.eq_iff_iff]
    simp only [List.all_eq_true, Function.comp_apply]
    exact forall₂_congr fun t ht => by rw [ih t ht]
  | array element rank ih => rw [typeName_array, TypeName.isClosed, Ty.isClosed_array, ih]
  | param index name => rw [typeName_param, TypeName.isClosed, Ty.isClosed_param]

/-! ### What closed types are made of -/

namespace Setting

variable {s : Setting} {t u : Ty}

theorem OnChain.isClosed (hwf : s.assembly.WellFormed) (ht : t.Fits s.assembly Ty.AnyParam)
    (hclosed : t.isClosed = true) (h : s.OnChain t u) : u.isClosed = true :=
  (h.fits hwf (ht.noParam hclosed)).isClosed

/-- What a declaration stores is closed by the arguments of a closed type. -/
theorem isClosed_subst_of_mem_types (hsound : s.assembly.StoresSoundTypes)
    (ht : t.Fits s.assembly Ty.AnyParam) (hclosed : t.isClosed = true) {symbol : Symbol}
    {d : TypeDef} (hsymbol : t.symbol? = some symbol) (hd : s.assembly.def? symbol = some d)
    {written : Ty} (hwritten : written ∈ d.types) : (written.subst t.args).isClosed = true := by
  obtain ⟨hlength, hargs⟩ := (ht.noParam hclosed).args hsymbol hd
  exact ((hsound.fits symbol d hd written hwritten).subst_args hlength hargs).isClosed

/-- The formatters that the members of a closed object name are closed. -/
theorem isClosed_of_member_formatter (hwf : s.assembly.WellFormed)
    (hsound : s.assembly.StoresSoundTypes) (ht : t.Fits s.assembly Ty.AnyParam)
    (hclosed : t.isClosed = true) {n : NodeMember} (hn : n ∈ (s.nodeOf t).members) {r : NamedType}
    (hr : n.formatter = some r) : r.type.isClosed = true := by
  obtain ⟨-, level, hlevel, m, hm, type, key, -, -, rfl⟩ := mem_nodeOf_members_iff.mp hn
  obtain ⟨a, ha, written, hwritten, rfl⟩ := exists_of_formatterOf hr
  have hchain := onChain_of_mem_levelsOf hlevel
  obtain ⟨symbol, d, hsymbol, hd, hmem, -⟩ := mem_dataAt hm
  have hstored : written ∈ d.types := TypeDef.mem_types.mpr
    (.inr (.inr (.inr ⟨m, hmem, Member.mem_types.mpr (.inr (.inr ⟨a, ha, hwritten⟩))⟩)))
  exact isClosed_subst_of_mem_types hsound (hchain.fits hwf ht) (hchain.isClosed hwf ht hclosed)
    hsymbol hd hstored

end Setting

/-! ### Closed objects of graphs -/

namespace TypeGraph

/-- A closed type whose node is in the graph. -/
structure HoldsClosed (s : Setting) (graph : TypeGraph) (r : NamedType) : Prop where
  isClosed : r.type.isClosed = true
  node : graph.node? r.name = some (s.nodeOf r.type)

/-- An object without parameters anywhere: in itself, in its members and in the whole of its chain
of bases. -/
structure ClosedObject (s : Setting) (graph : TypeGraph) (node : Node) : Prop where
  self : node.self.type.isClosed = true
  member : ∀ m ∈ node.members, HoldsClosed s graph m.declared
  base : ∀ u, s.Above node.self.type.symbol?.toList node.self.type u →
    s.named u ∈ node.bases ∧ HoldsClosed s graph (s.named u)

/-- What a graph keeps of its types: those of nodes and of members have the arguments that their
declarations ask for, and objects that are not open are closed. -/
structure KeepsTypes (s : Setting) (graph : TypeGraph) : Prop where
  self : ∀ node ∈ graph.nodes, node.self.type.Fits s.assembly Ty.AnyParam
  declared : ∀ node ∈ graph.nodes, ∀ m ∈ node.members, m.declared.type.Fits s.assembly Ty.AnyParam
  object : ∀ node ∈ graph.nodes, ∀ keysAsNames, node.kind = .object keysAsNames false →
    ClosedObject s graph node

variable {s : Setting} {graph : TypeGraph}

theorem Complete.closedObject (hg : Complete s graph) {t : Ty} (ht : t.Fits s.assembly Ty.AnyParam)
    (hnode : s.nodeOf t ∈ graph.nodes) {keysAsNames : Bool}
    (hkind : s.kindOf t = .object keysAsNames false) : ClosedObject s graph (s.nodeOf t) := by
  have hclosed : t.isClosed = true := by
    simpa using (Setting.isOpen_eq (.inl ⟨keysAsNames, hkind⟩)).symm
  have hfound : graph.node? (s.nodeOf t).name = some (s.nodeOf t) :=
    (node?_eq_some_iff hg.distinct).mpr ⟨hnode, rfl⟩
  refine ⟨by simpa using hclosed, fun m hm => ?_, fun u habove => ?_⟩
  · have hm' := Setting.isClosed_of_mem_members hg.wellFormed ht hclosed hm
    exact ⟨hm', (hg.node?_of_mem_refs hfound (Node.mem_refs_of_mem_members hm hm') hm').2.2⟩
  · rw [Setting.nodeOf_self, Setting.named_type] at habove
    have hu : u.isClosed = true := Setting.OnChain.isClosed hg.wellFormed ht hclosed (.inr habove)
    have hbase : s.named u ∈ (s.nodeOf t).bases :=
      (Setting.mem_nodeOf_bases_iff hg.wellFormed ht).mpr
        ⟨by rw [hkind]; rfl, u, habove, hu, rfl⟩
    exact ⟨hbase, hu, (hg.node?_of_mem_refs hfound (Node.mem_refs_of_mem_bases hbase) hu).2.2⟩

theorem Complete.keepsTypes (hg : Complete s graph) : KeepsTypes s graph where
  self node hnode := by
    obtain ⟨t, ht, rfl⟩ := hg.made node hnode
    rwa [Setting.nodeOf_self]
  declared node hnode m hm := by
    obtain ⟨t, ht, rfl⟩ := hg.made node hnode
    obtain ⟨-, level, hlevel, member, hmember, type, key, htype, -, rfl⟩ :=
      Setting.mem_nodeOf_members_iff.mp hm
    have hchain := Setting.onChain_of_mem_levelsOf hlevel
    exact Setting.fits_of_mem_dataAt hg.wellFormed (hchain.fits hg.wellFormed ht) hmember htype
  object node hnode keysAsNames hkind := by
    obtain ⟨t, ht, rfl⟩ := hg.made node hnode
    rw [Setting.nodeOf_kind] at hkind
    exact hg.closedObject ht hnode hkind

end TypeGraph

/-! ### Strategies of objects -/

namespace Setting

variable {s : Setting} {control : RunControl} {root : Symbol} {a : Analysis}

/-- A planned member names the types of the member that it is planned from. -/
theorem typeNames_of_plannedMember? {n : NodeMember} {p : PlannedMember}
    (h : StrategySetting.plannedMember? n = some p) :
    p.typeNames = (n.declared :: n.formatter.toList).map (·.name) := by
  unfold StrategySetting.plannedMember? at h
  cases hformatter : n.formatter <;> cases hkey : n.key <;> rw [hformatter, hkey] at h
  -- Only keys that are numbers or names are planned.
  case none.int | none.string | some.int | some.string =>
    obtain rfl := Option.some.inj h
    rfl
  all_goals cases h

/-- No parameter is named by what the members of an object are planned with. -/
theorem Analyzed.WrittenAsObject.isClosed_typeNames (hwf : s.assembly.WellFormed)
    (hsound : s.assembly.StoresSoundTypes) {t : Ty} {keysAsNames : Bool}
    {planned : List PlannedMember} (h : WrittenAsObject s a t keysAsNames planned)
    {p : PlannedMember} (hp : p ∈ planned) : ∀ name ∈ p.typeNames, name.isClosed = true := by
  obtain ⟨n, hn, hplanned⟩ := List.mem_filterMap.mp (h.planned.mem_iff.mp hp)
  have hdeclared := isClosed_of_mem_members hwf h.fits h.isClosed hn
  have hformatter : ∀ r, n.formatter = some r → r.type.isClosed = true := fun r =>
    isClosed_of_member_formatter hwf hsound h.fits h.isClosed hn
  obtain ⟨-, level, -, m, -, type, key, -, -, rfl⟩ := mem_nodeOf_members_iff.mp hn
  rw [typeNames_of_plannedMember? hplanned]
  intro name hname
  obtain ⟨r, hr, rfl⟩ := List.mem_map.mp hname
  rcases List.mem_cons.mp hr with rfl | hr
  · show (s.assembly.typeName _).isClosed = true
    rw [Assembly.isClosed_typeName]
    exact hdeclared
  · obtain ⟨a, -, written, -, rfl⟩ := exists_of_formatterOf (Option.mem_toList.mp hr)
    show (s.assembly.typeName _).isClosed = true
    rw [Assembly.isClosed_typeName]
    exact hformatter _ (Option.mem_toList.mp hr)

/-- In a loaded assembly every graph keeps its types, and the analysis that it belongs to names no
parameter in the strategy of an object. -/
theorem keepsTypes_of_graphOf {documents : List Document}
    (hload : Assembly.load documents = .ok s.assembly) (hroot : root.index < s.assembly.defs.size)
    {graph : TypeGraph} (hgraph : s.graphOf control root = .ok graph) :
    TypeGraph.KeepsTypes s graph ∧ ∃ a, s.analyze control root = .ok a ∧ a.graph = graph ∧
      ∀ layout planned, .object layout planned ∈ a.strategies →
        ∀ p ∈ planned, ∀ name ∈ p.typeNames, name.isClosed = true := by
  have hwf := Assembly.wellFormed_of_load hload
  obtain ⟨a, hanalyze, ha⟩ := exists_analyze_eq_ok hgraph
  refine ⟨(TypeGraph.complete_of_graphOf hwf hroot hgraph).keepsTypes, a, hanalyze, ha, ?_⟩
  intro layout planned hobject
  have h := analyzed_of_analyze hload hroot hanalyze
  rw [h.strategies] at hobject
  obtain ⟨name, hname, hstrategy⟩ := List.mem_map.mp hobject
  have hfound : a.strategyOf? name = some (.object layout planned) := by
    rw [h.strategyOf?_eq hname, hstrategy]
  obtain ⟨t, keysAsNames, -, hwritten, -⟩ := h.writtenAsObject hfound
  intro p hp
  exact hwritten.isClosed_typeNames hwf (Assembly.storesSoundTypes_of_load hload) hp

end Setting

/-! ### A chain of generic bases -/

/-- A leaf at the end of a chain of generic bases, whose outermost member names a formatter. -/
def leafDocument : Document where
  types := [
    { name := "App.Base", kind := .abstractClass, generics := ["T"],
      attributes := [.bare "MessagePack.MessagePackObjectAttribute"],
      members := [
        { name := "Content", type := some "T[]",
          attributes := [
            .full "MessagePack.KeyAttribute" [.value (.number (.integer 0))],
            .full "MessagePack.MessagePackFormatterAttribute" [.typeOf "App.Writer<T>"]] }] },
    { name := "App.Middle", kind := .abstractClass, generics := ["U"],
      base := some "App.Base<List<U>>",
      attributes := [.bare "MessagePack.MessagePackObjectAttribute"],
      members := [
        { name := "Extra", type := some "Dictionary<string, U>",
          attributes := [.full "MessagePack.KeyAttribute" [.value (.number (.integer 1))]] }] },
    { name := "App.Leaf", kind := .concreteClass, base := some "App.Middle<int>",
      attributes := [.bare "MessagePack.MessagePackObjectAttribute"],
      members := [
        { name := "Next", type := some "App.Leaf",
          attributes := [.full "MessagePack.KeyAttribute" [.value (.number (.integer 2))]] }] },
    { name := "App.Writer", kind := .concreteClass, generics := ["V"],
      members := [
        { name := "Serialize", kind := .method, params := ["V[]"] },
        { name := "Deserialize", kind := .method, type := some "V[]" }] }]

def leafDefs : List TypeDef := [
  { name := "App.Base", kind := .abstractClass, generics := ["T"], base := none,
    underlying := none, attributes := [⟨⟨90⟩, []⟩],
    members := [
      { name := "Content", kind := .property, type := some (.array (.param 0 "T") 1), params := [],
        access := .everyone, isStatic := false,
        attributes := [⟨⟨91⟩, [.int 0]⟩, ⟨⟨95⟩, [.type (.named ⟨99⟩ [.param 0 "T"])]⟩] }] },
  { name := "App.Middle", kind := .abstractClass, generics := ["U"],
    base := some (.named ⟨96⟩ [.named ⟨32⟩ [.param 0 "U"]]), underlying := none,
    attributes := [⟨⟨90⟩, []⟩],
    members := [
      { name := "Extra", kind := .property,
        type := some (.named ⟨45⟩ [.named ⟨25⟩ [], .param 0 "U"]), params := [],
        access := .everyone, isStatic := false, attributes := [⟨⟨91⟩, [.int 1]⟩] }] },
  { name := "App.Leaf", kind := .concreteClass, generics := [],
    base := some (.named ⟨97⟩ [.named ⟨5⟩ []]), underlying := none, attributes := [⟨⟨90⟩, []⟩],
    members := [
      { name := "Next", kind := .property, type := some (.named ⟨98⟩ []), params := [],
        access := .everyone, isStatic := false, attributes := [⟨⟨91⟩, [.int 2]⟩] }] },
  { name := "App.Writer", kind := .concreteClass, generics := ["V"], base := none,
    underlying := none, attributes := [],
    members := [
      { name := "Serialize", kind := .method, type := none, params := [.array (.param 0 "V") 1],
        access := .everyone, isStatic := false, attributes := [] },
      { name := "Deserialize", kind := .method, type := some (.array (.param 0 "V") 1),
        params := [], access := .everyone, isStatic := false, attributes := [] }] }]

def leafSetting : Setting := .ofDefs leafDefs {}

/-- The nodes of the leaf: itself, its bases, the types of the members that it has from them, and
what these are made of. -/
def leafGraph : TypeGraph :=
  ⟨#[leafSetting.nodeOf (.named ⟨98⟩ []),
    leafSetting.nodeOf (.named ⟨97⟩ [.named ⟨5⟩ []]),
    leafSetting.nodeOf (.named ⟨96⟩ [.named ⟨32⟩ [.named ⟨5⟩ []]]),
    leafSetting.nodeOf (.array (.named ⟨32⟩ [.named ⟨5⟩ []]) 1),
    leafSetting.nodeOf (.named ⟨45⟩ [.named ⟨25⟩ [], .named ⟨5⟩ []]),
    leafSetting.nodeOf (.named ⟨32⟩ [.named ⟨5⟩ []]),
    leafSetting.nodeOf (.named ⟨25⟩ []), leafSetting.nodeOf (.named ⟨5⟩ [])]⟩

theorem loads_leafDocument : Assembly.load [leafDocument] = .ok leafSetting.assembly ∧
    Setting.of? leafSetting.assembly [] {} = some leafSetting :=
  Setting.loads_ofDefs (by decide +kernel) (toOption_eq_some_iff.mp (by decide +kernel)) {}

/-- The leaf is an object of a loaded assembly, with two generic bases above it. -/
theorem leafGraph_keepsTypes : Assembly.load [leafDocument] = .ok leafSetting.assembly ∧
    98 < leafSetting.assembly.defs.size ∧ leafSetting.graphOf {} ⟨98⟩ = .ok leafGraph ∧
    leafSetting.kindOf (.named ⟨98⟩ []) = .object false false ∧
    TypeGraph.KeepsTypes leafSetting leafGraph ∧
    ∃ a, leafSetting.analyze {} ⟨98⟩ = .ok a ∧ a.graph = leafGraph ∧
      ∀ layout planned, .object layout planned ∈ a.strategies →
        ∀ p ∈ planned, ∀ name ∈ p.typeNames, name.isClosed = true := by
  have hroot : 98 < leafSetting.assembly.defs.size := by decide +kernel
  have hgraph : leafSetting.graphOf {} ⟨98⟩ = .ok leafGraph :=
    TypeGraph.graphOf_eq_ok rfl (by decide +kernel)
  exact ⟨loads_leafDocument.1, hroot, hgraph, by decide +kernel,
    Setting.keepsTypes_of_graphOf loads_leafDocument.1 hroot hgraph⟩

end FormatterPlan
