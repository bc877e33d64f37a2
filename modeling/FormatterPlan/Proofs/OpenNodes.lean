import FormatterPlan.Proofs.CleanPlans
import FormatterPlan.Proofs.RenumberedRoles

/-! Open types in graphs.  The root of an analysis may be an open definition, with its parameters as
arguments.  Bases, members and variants become nodes only if they are closed, and the arguments of a
closed collection are closed.  The type of an enumeration's values is the exception: it is taken as
it is written, so in a generic enumeration it may be a parameter.  A graph has open nodes besides
its root exactly when the values of one of its enumerations are of such a type. -/

namespace FormatterPlan

/-! ### Collections -/

namespace Setting

variable {s : Setting} {t u : Ty}

/-- A collection with parameters is a declaration of the prelude. -/
theorem index_lt_of_collection {documents : List Document} {hidden : List String}
    {options : Options} (hload : Assembly.load documents = .ok s.assembly)
    (hsetting : of? s.assembly hidden options = some s) {symbol : Symbol} {c : CollectionShape}
    (hcollection : s.roles.collection? symbol = some c) {d : TypeDef}
    (hd : s.assembly.def? symbol = some d) (hgenerics : d.generics.length ≠ 0) :
    symbol.index < s.assembly.preludeSize := by
  obtain ⟨hc, hfound⟩ := of?_collection hsetting hcollection
  obtain ⟨e, he, hname⟩ := Assembly.exists_of_byMetadataName? hfound
  obtain rfl : d = e := by rw [hd] at he; exact Option.some.inj he
  obtain ⟨hsame, hmark⟩ := CollectionShape.metadataName_plain hc
  obtain ⟨index, hlt, hindex⟩ := Prelude.exists_collection hc
  have hdistinct := (Assembly.wellFormed_of_load hload).distinct
  -- Both names have the mark of an arity, so both declarations have parameters.
  have harity : arityMark ∈ c.metadataName.toList := by
    rw [← hname]
    exact arityMark_mem_metadataName d.name hgenerics
  obtain rfl : symbol = ⟨index⟩ := hdistinct.eq_of_metadataName hd
    (Assembly.def?_prelude hload hindex) (hname.trans hsame.symm)
    (iff_of_false hgenerics fun hplain => hmark hplain harity)
  rw [Assembly.preludeSize_of_load hload]
  exact hlt

theorem collection?_of_kindOf {symbol : Symbol} {args : List Ty} {c : CollectionShape}
    (h : s.kindOf (.named symbol args) = .collection c) : s.roles.collection? symbol = some c := by
  rw [kindOf] at h
  rcases s.declaredKind_cases symbol args with
    heq | heq | ⟨b, heq⟩ | ⟨shape, hshape, heq⟩ | ⟨d, -, ⟨-, heq⟩ | heq⟩
  case inr.inr.inr.inl =>
    rw [heq] at h
    rw [hshape, NodeKind.collection.inj h]
  case inr.inr.inr.inr.inr =>
    rw [heq] at h
    rcases s.markedKind_cases d (!args.all Ty.isClosed) with
      hmarked | hmarked | ⟨keysAsNames, hmarked⟩ <;> rw [hmarked] at h <;> cases h
  all_goals simp [heq] at h

/-- A root is no enumeration, and if it is a collection it has no parameters. -/
theorem kindOf_rootType {documents : List Document} {hidden : List String} {options : Options}
    (hload : Assembly.load documents = .ok s.assembly)
    (hsetting : of? s.assembly hidden options = some s) {root : Symbol}
    (hroot : root ∈ s.rootCandidates) :
    s.kindOf (TypeGraph.rootType s.assembly root) ≠ .enumeration ∧
      ∀ c, s.kindOf (TypeGraph.rootType s.assembly root) = .collection c →
        (TypeGraph.rootType s.assembly root).isClosed = true := by
  obtain ⟨⟨huser, hsize⟩, hcandidate⟩ := mem_rootCandidates_iff.mp hroot
  obtain ⟨d, hd⟩ : ∃ d, s.assembly.def? root = some d := ⟨_, Array.getElem?_eq_getElem hsize⟩
  constructor
  · intro henum
    obtain ⟨symbol, e, hsymbol, he, hkind⟩ := exists_enumeration henum
    obtain rfl : root = symbol := Option.some.inj hsymbol
    obtain rfl : d = e := by rw [hd] at he; exact Option.some.inj he
    exact (markedKind_of_isRootCandidate hd hcandidate false).1 hkind
  · intro c hkind
    have hcollection := collection?_of_kindOf hkind
    by_cases hgenerics : d.generics.length = 0
    · have hnil : s.assembly.genericsOf root = [] := by
        simpa [Assembly.genericsOf, hd] using hgenerics
      simp [TypeGraph.rootType, Ty.definition, hnil]
    · have hlt := index_lt_of_collection hload hsetting hcollection hd hgenerics
      omega

/-! ### References to open types -/

/-- A type refers to an open one only as an open collection or as an enumeration. -/
theorem Refers.isClosed_cases (h : s.Refers t u) :
    u.isClosed = true ∨ (t.isClosed = false ∧ ∃ c, s.kindOf t = .collection c) ∨
      (s.kindOf t = .enumeration ∧ s.named u ∈ (s.nodeOf t).elements) := by
  cases h with
  | base _ _ hclosed => exact .inl hclosed
  | member _ _ _ _ _ hclosed => exact .inl hclosed
  | variant _ _ _ _ hclosed => exact .inl hclosed
  | @element c _ rank hkind harray =>
    subst harray
    by_cases hclosed : u.isClosed = true
    · exact .inl hclosed
    · exact .inr (.inl ⟨by simpa using hclosed, c, hkind⟩)
  | @argument c _ hkind hargument =>
    by_cases hclosed : t.isClosed = true
    · have helement : s.named u ∈ (s.nodeOf t).elements :=
        mem_nodeOf_elements_iff.mpr (.inl ⟨c, hkind, .inr ⟨u, hargument, rfl⟩⟩)
      exact .inl (isClosed_of_mem_elements hkind hclosed helement)
    · exact .inr (.inl ⟨by simpa using hclosed, c, hkind⟩)
  | @underlying symbol d _ hkind hsymbol hdef hunderlying =>
    exact .inr (.inr ⟨hkind,
      mem_nodeOf_elements_iff.mpr (.inr ⟨hkind, symbol, d, u, hsymbol, hdef, hunderlying, rfl⟩)⟩)

end Setting

namespace TypeGraph

/-- Whether the values of the enumerations of a graph are of closed types, or of the root. -/
def ClosedValues (graph : TypeGraph) (root : TypeName) : Prop :=
  ∀ node ∈ graph.nodes, node.kind = .enumeration →
    ∀ r ∈ node.elements, r.type.isClosed = true ∨ r.name = root

variable {s : Setting} {graph : TypeGraph} {root : Ty}

/-- One reference keeps a type closed, unless it is the root. -/
theorem Complete.isClosed_of_refers (hg : Complete s graph)
    (hroot : root.Fits s.assembly Ty.AnyParam) (henum : s.kindOf root ≠ .enumeration)
    (hcollection : ∀ c, s.kindOf root = .collection c → root.isClosed = true)
    (hvalues : graph.ClosedValues (s.assembly.typeName root)) {t u : Ty}
    (ht : t.Fits s.assembly Ty.AnyParam) (hname : s.assembly.typeName t ∈ graph.names)
    (hclosed : t.isClosed = true ∨ s.assembly.typeName t = s.assembly.typeName root)
    (h : s.Refers t u) :
    u.isClosed = true ∨ s.assembly.typeName u = s.assembly.typeName root := by
  rcases hclosed with hclosed | hsame
  · have hnode := ((node?_eq_some_iff hg.distinct).mp (hg.node?_typeName ht hclosed hname)).1
    rcases h.isClosed_cases with hu | ⟨hopen, -⟩ | ⟨hkind, helement⟩
    · exact .inl hu
    · rw [hclosed] at hopen
      cases hopen
    · exact hvalues _ hnode (by rw [Setting.nodeOf_kind, hkind]) _ helement
  · -- A type of the root's name is of the root's kind, and open only if the root is.
    have hunplaced := hg.wellFormed.distinct.unplaced_eq ht hroot hsame
    have hkinds : s.kindOf t = s.kindOf root := Setting.kindOf_congr hunplaced
    rcases h.isClosed_cases with hu | ⟨hopen, c, hkind⟩ | ⟨hkind, -⟩
    · exact .inl hu
    · rw [Setting.isClosed_congr hunplaced, hcollection c (hkinds ▸ hkind)] at hopen
      cases hopen
    · exact (henum (hkinds ▸ hkind)).elim

theorem isClosed_of_reachedIn (hg : Complete s graph) (hroot : root.Fits s.assembly Ty.AnyParam)
    (hnames : ∀ k t, s.ReachedIn root k t → s.assembly.typeName t ∈ graph.names)
    (henum : s.kindOf root ≠ .enumeration)
    (hcollection : ∀ c, s.kindOf root = .collection c → root.isClosed = true)
    (hvalues : graph.ClosedValues (s.assembly.typeName root)) {k : Nat} {t : Ty}
    (h : s.ReachedIn root k t) :
    t.isClosed = true ∨ s.assembly.typeName t = s.assembly.typeName root := by
  induction h with
  | root => exact .inr rfl
  | step hreached hrefers ih =>
    exact hg.isClosed_of_refers hroot henum hcollection hvalues
      (hreached.fits hg.wellFormed hroot) (hnames _ _ hreached) ih hrefers

/-- Where all nodes but the root are closed, so are the types of the values of enumerations. -/
theorem Complete.closedValues (hg : Complete s graph) {name : TypeName}
    (h : ∀ node ∈ graph.nodes, node.name ≠ name → node.self.type.isClosed = true) :
    graph.ClosedValues name := by
  intro node hnode _ r hr
  by_cases hname : r.name = name
  · exact .inr hname
  · obtain ⟨t, ht, rfl⟩ := hg.made node hnode
    have href := Node.mem_refs_of_mem_elements hr
    obtain ⟨found, hfound, hsame⟩ := mem_names_iff.mp (hg.closed _ hnode r href)
    have hclosed := h found hfound (hsame ▸ hname)
    obtain ⟨u, hu, rfl⟩ := hg.made found hfound
    obtain ⟨v, hrefers, rfl⟩ := (Setting.mem_refs_iff hg.wellFormed ht).mp href
    rw [Setting.nodeOf_self, Setting.named_type] at hclosed
    rw [Setting.nodeOf_name] at hsame
    obtain rfl : u = v := hg.wellFormed.distinct.eq_of_typeName_eq hu
      (hrefers.fits hg.wellFormed ht) hclosed hsame
    exact .inl hclosed

/-- In a loaded assembly, the nodes of the graph of a root candidate, but for the root itself, are
closed exactly when the values of the enumerations among them are of closed types, or of the root's
type. -/
theorem nodesClosed_iff_closedValues {documents : List Document} {hidden : List String}
    {options : Options} (hload : Assembly.load documents = .ok s.assembly)
    (hsetting : Setting.of? s.assembly hidden options = some s) {symbol : Symbol}
    (hsymbol : symbol ∈ s.rootCandidates) {control : RunControl}
    (hgraph : s.graphOf control symbol = .ok graph) :
    (∀ node ∈ graph.nodes, node.name ≠ s.assembly.typeName (rootType s.assembly symbol) →
        node.self.type.isClosed = true) ↔
      graph.ClosedValues (s.assembly.typeName (rootType s.assembly symbol)) := by
  have hwf := Assembly.wellFormed_of_load hload
  have hsize := (Setting.mem_rootCandidates_iff.mp hsymbol).1.2
  have hroot := Setting.rootType_fits hsize
  have hg := complete_of_graphOf hwf hsize hgraph
  refine ⟨hg.closedValues, fun hvalues node hnode hname => ?_⟩
  obtain ⟨henum, hcollection⟩ := Setting.kindOf_rootType hload hsetting hsymbol
  obtain ⟨last, hlast, hexplored⟩ := explored_of_graphOf hwf hsize hgraph
  have hnames : ∀ k t, s.ReachedIn (rootType s.assembly symbol) k t →
      s.assembly.typeName t ∈ graph.names := fun k t ht =>
    (hexplored.mem_namesOf_iff hwf hroot hlast _).mpr ⟨k, t, ht, rfl⟩
  obtain ⟨i, hi⟩ := Array.mem_iff_getElem?.mp hnode
  obtain ⟨k, t, ht, rfl⟩ := hexplored.reached i node hi
  rw [Setting.nodeOf_name] at hname
  rw [Setting.nodeOf_self, Setting.named_type]
  exact (isClosed_of_reachedIn hg hroot hnames henum hcollection hvalues ht).resolve_right hname

end TypeGraph

/-! ### The values of a generic enumeration -/

/-- A holder of a mode, where modes are an enumeration that is declared with a parameter, and the
parameter is the type of its values. -/
def modeDocument : Document where
  types := [
    { name := "App.Holder", kind := .concreteClass,
      attributes := [.bare "MessagePack.MessagePackObjectAttribute"],
      members := [
        { name := "Mode", type := some "App.Mode<System.Int32>",
          attributes := [.full "MessagePack.KeyAttribute" [.value (.number (.integer 0))]] }] },
    { name := "App.Mode", kind := .enumeration, generics := ["T"], underlying := some "T" }]

def modeDefs : List TypeDef := [
  { name := "App.Holder", kind := .concreteClass, generics := [], base := none, underlying := none,
    attributes := [⟨⟨90⟩, []⟩],
    members := [
      { name := "Mode", kind := .property, type := some (.named ⟨97⟩ [.named ⟨5⟩ []]), params := [],
        access := .everyone, isStatic := false, attributes := [⟨⟨91⟩, [.int 0]⟩] }] },
  { name := "App.Mode", kind := .enumeration, generics := ["T"], base := none,
    underlying := some (.param 0 "T"), attributes := [], members := [] }]

def modeSetting : Setting := .ofDefs modeDefs {}

/-- The nodes of the holder: itself, the closed type of its member, and an open one. -/
def modeGraph : TypeGraph :=
  ⟨#[modeSetting.nodeOf (.named ⟨96⟩ []), modeSetting.nodeOf (.named ⟨97⟩ [.named ⟨5⟩ []]),
    modeSetting.nodeOf (.param 0 "T")]⟩

/-- The document loads, and the holder is a root whose graph has these nodes. -/
theorem loads_modeDocument : Assembly.load [modeDocument] = .ok modeSetting.assembly ∧
    Setting.of? modeSetting.assembly [] {} = some modeSetting ∧
    ⟨96⟩ ∈ modeSetting.rootCandidates ∧ modeSetting.graphOf {} ⟨96⟩ = .ok modeGraph := by
  obtain ⟨hload, hsetting⟩ : Assembly.load [modeDocument] = .ok modeSetting.assembly ∧
      Setting.of? modeSetting.assembly [] {} = some modeSetting :=
    Setting.loads_ofDefs (by decide +kernel) (toOption_eq_some_iff.mp (by decide +kernel)) {}
  exact ⟨hload, hsetting, by decide +kernel, TypeGraph.graphOf_eq_ok rfl (by decide +kernel)⟩

/-- The condition and the nodes agree on the holder: neither holds. -/
theorem modeGraph_closed_iff :
    Assembly.load [modeDocument] = .ok modeSetting.assembly ∧
    Setting.of? modeSetting.assembly [] {} = some modeSetting ∧
    ⟨96⟩ ∈ modeSetting.rootCandidates ∧ modeSetting.graphOf {} ⟨96⟩ = .ok modeGraph ∧
    ((∀ node ∈ modeGraph.nodes,
        node.name ≠ modeSetting.assembly.typeName (TypeGraph.rootType modeSetting.assembly ⟨96⟩) →
          node.self.type.isClosed = true) ↔
      modeGraph.ClosedValues
        (modeSetting.assembly.typeName (TypeGraph.rootType modeSetting.assembly ⟨96⟩))) := by
  obtain ⟨hload, hsetting, hroot, hgraph⟩ := loads_modeDocument
  exact ⟨hload, hsetting, hroot, hgraph,
    TypeGraph.nodesClosed_iff_closedValues hload hsetting hroot hgraph⟩

/-- A root candidate without parameters reaches an open node: the parameter of the enumeration, with
nothing put in its place. -/
theorem holder_reaches_open_node :
    Assembly.load [modeDocument] = .ok modeSetting.assembly ∧
    Setting.of? modeSetting.assembly [] {} = some modeSetting ∧
    ⟨96⟩ ∈ modeSetting.rootCandidates ∧ modeSetting.graphOf {} ⟨96⟩ = .ok modeGraph ∧
    ∃ node ∈ modeGraph.nodes,
      node.name ≠ modeSetting.assembly.typeName (TypeGraph.rootType modeSetting.assembly ⟨96⟩) ∧
        node.self.type.isClosed = false := by
  obtain ⟨hload, hsetting, hroot, hgraph⟩ := loads_modeDocument
  refine ⟨hload, hsetting, hroot, hgraph, modeSetting.nodeOf (.param 0 "T"), by simp [modeGraph],
    ?_, rfl⟩
  rw [Setting.nodeOf_name, Assembly.typeName_param, TypeGraph.rootType, Ty.definition,
    Assembly.typeName_named]
  exact TypeName.noConfusion

end FormatterPlan
