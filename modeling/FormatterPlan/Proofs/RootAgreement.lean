import FormatterPlan.Proofs.Leaves
import FormatterPlan.Proofs.NodeChecks

/-! What the analyses of two roots agree on.  A node depends on its type alone, so two graphs have
the same node for a closed type that is in both, and whatever it refers to is in both as well.  The
analyses therefore agree on the findings of shared types, on which of them are blocked, and on which
should get no formatter.  They need not agree on the order in which strategies are chosen.  A type
that should get no formatter gets its full strategy if that is chosen before its parts are known to
have none, and with unions that are variants of each other this depends on the root. -/

namespace FormatterPlan

namespace StrategySetting

theorem collectionStrategy_congr {graph graph' : TypeGraph} {shape : CollectionShape}
    {elements : List TypeName} (h : ∀ name ∈ elements, graph.node? name = graph'.node? name) :
    collectionStrategy graph shape elements = collectionStrategy graph' shape elements := by
  unfold collectionStrategy
  dsimp only
  split
  · simp only [h _ List.mem_cons_self]
  · rfl

/-- The full strategy of a node depends on the graph only through the elements of a collection. -/
theorem fullStrategy_congr {s s' : StrategySetting} {node : Node}
    (hblocked : s.verdict.isBlocked node.name = s'.verdict.isBlocked node.name)
    (hmode : s.mapMode = s'.mapMode)
    (helements : ∀ shape, node.kind = .collection shape → ∀ r ∈ node.elements,
      s.graph.node? r.name = s'.graph.node? r.name) :
    s.fullStrategy node = s'.fullStrategy node := by
  unfold fullStrategy
  rw [hblocked, hmode]
  match hkind : node.kind with
  | .collection shape =>
    have hstrategy : collectionStrategy s.graph shape (node.elements.map (·.name)) =
        collectionStrategy s'.graph shape (node.elements.map (·.name)) := by
      refine collectionStrategy_congr fun name hname => ?_
      obtain ⟨r, hr, rfl⟩ := List.mem_map.mp hname
      exact helements shape hkind r hr
    dsimp only
    rw [hstrategy]
  | .builtin _ | .assumed | .enumeration | .unresolved => rfl
  | .object _ false | .object _ true | .union false | .union true => rfl

end StrategySetting

/-- Whether the strategy of a type is chosen before it is known that the type should get none. -/
def Analysis.ChoosesTooEarly (s : Setting) (a : Analysis) (name : TypeName) : Prop :=
  (a.choices s).TooEarly (a.choices s).finalState.chosen name

namespace Setting.Analyzed

variable {s : Setting} {a b : Analysis} {t : Ty}

/-- A closed type that has nodes in two analyses. -/
structure Shared (s : Setting) (a b : Analysis) (t : Ty) : Prop where
  left : Analyzed s a
  right : Analyzed s b
  node : HasNode s a t
  node' : HasNode s b t

namespace Shared

theorem symm (h : Shared s a b t) : Shared s b a t := ⟨h.right, h.left, h.node', h.node⟩

theorem node?_eq (h : Shared s a b t) :
    a.graph.node? (s.assembly.typeName t) = b.graph.node? (s.assembly.typeName t) := by
  rw [h.node.node, h.node'.node]

theorem of_mem_refs (h : Shared s a b t) {r : NamedType} (hr : r ∈ (s.nodeOf t).refs)
    (hclosed : r.type.isClosed = true) :
    Shared s a b r.type ∧ r.name = s.assembly.typeName r.type := by
  obtain ⟨hnode, hnamed⟩ := h.left.hasNode_of_mem_refs h.node.node hr hclosed
  obtain ⟨hnode', -⟩ := h.right.hasNode_of_mem_refs h.node'.node hr hclosed
  exact ⟨⟨h.left, h.right, hnode, hnode'⟩, congrArg NamedType.name hnamed⟩

/-! ### Findings -/

theorem bareLeaves_eq (h : Shared s a b t) :
    a.graph.bareLeaves (s.assembly.typeName t) = b.graph.bareLeaves (s.assembly.typeName t) := by
  induction hsize : sizeOf t using Nat.strong_induction_on generalizing t with
  | _ size ih =>
    subst hsize
    rw [TypeGraph.bareLeaves_typeName h.node.node, TypeGraph.bareLeaves_typeName h.node'.node]
    match hkind : s.kindOf t with
    | .collection shape =>
      have helements : ((s.nodeOf t).elements.flatMap fun r => a.graph.bareLeaves r.name) =
          (s.nodeOf t).elements.flatMap fun r => b.graph.bareLeaves r.name := by
        refine List.flatMap_congr fun r hr => ?_
        obtain ⟨u, rfl, hsmaller⟩ := exists_of_mem_elements hkind hr
        obtain ⟨hu, -⟩ := h.of_mem_refs (Node.mem_refs_of_mem_elements hr)
          (isClosed_of_mem_elements hkind h.node.isClosed hr)
        exact ih _ hsmaller hu rfl
      rw [helements]
    | .unresolved | .builtin _ | .assumed | .enumeration | .object _ _ | .union _ => rfl

theorem findingsOf_eq (h : Shared s a b t) {asm : Assembly} {mapMode : Bool} :
    a.graph.findingsOf asm mapMode (s.nodeOf t) = b.graph.findingsOf asm mapMode (s.nodeOf t) := by
  have hmember : ∀ m ∈ (s.nodeOf t).members, m.declared.type.isClosed = true →
      Shared s a b m.declared.type ∧ m.declared.name = s.assembly.typeName m.declared.type :=
    fun m hm hclosed => h.of_mem_refs (Node.mem_refs_of_mem_members hm hclosed) hclosed
  have hagree : TypeGraph.Agree (s.nodeOf t) b.graph a.graph := by
    refine ⟨fun m hm hclosed => ?_, fun m hm hclosed => ?_, fun v hv => ?_⟩
    · obtain ⟨hu, hname⟩ := hmember m hm hclosed
      rw [hname, hu.bareLeaves_eq]
    · obtain ⟨hu, hname⟩ := hmember m hm hclosed
      rw [TypeGraph.formatterName, TypeGraph.formatterName, hname, hu.node?_eq]
    · obtain ⟨hu, hname⟩ :=
        h.of_mem_refs (Node.mem_refs_of_mem_variants hv) (isClosed_of_mem_variants hv)
      rw [hname, hu.node?_eq]
  exact hagree.findingsOf_eq asm mapMode

/-! ### Blocked types -/

/-- What a shared type passes its value on to is shared, and reached in the other graph too. -/
theorem passesOnTo (h : Shared s a b t) {name : TypeName}
    (hpasses : a.graph.PassesOnTo (s.assembly.typeName t) name) :
    b.graph.PassesOnTo (s.assembly.typeName t) name ∧
      ∃ u, Shared s a b u ∧ s.assembly.typeName u = name := by
  induction hpasses with
  | refl => exact ⟨.refl, t, h, rfl⟩
  | tail _ hlast ih =>
    obtain ⟨hbefore, u, hu, rfl⟩ := ih
    obtain ⟨node, hnode, hformatter, hpart⟩ := hlast
    obtain rfl := hu.node.eq_node hnode
    refine ⟨hbefore.tail ⟨_, hu.node'.node, hformatter, hpart⟩, ?_⟩
    obtain ⟨r, hr, rfl, hclosed, -⟩ := TypeGraph.exists_of_mem_passedOn hu.node.isClosed hpart
    obtain ⟨hshared, hname⟩ := hu.of_mem_refs hr hclosed
    exact ⟨r.type, hshared, hname.symm⟩

theorem blocked (h : Shared s a b t) {asm : Assembly} {mapMode : Bool}
    (hblocked : TypeGraph.Blocked asm mapMode a.graph (s.assembly.typeName t)) :
    TypeGraph.Blocked asm mapMode b.graph (s.assembly.typeName t) := by
  generalize hname : s.assembly.typeName t = name at hblocked
  induction hblocked generalizing t with
  | finding hnode hfinding =>
    subst hname
    obtain rfl := h.node.eq_node hnode
    exact .finding h.node'.node (h.findingsOf_eq ▸ hfinding)
  | base hnode hobject hbase _ ih =>
    subst hname
    obtain rfl := h.node.eq_node hnode
    obtain ⟨hu, hu'⟩ :=
      h.of_mem_refs (Node.mem_refs_of_mem_bases hbase) (isClosed_of_mem_bases hbase)
    exact .base h.node'.node hobject hbase (hu' ▸ ih hu hu'.symm)
  | member hnode hobject hm hformatter hclosed hpasses _ ih =>
    subst hname
    obtain rfl := h.node.eq_node hnode
    obtain ⟨hu, hu'⟩ := h.of_mem_refs (Node.mem_refs_of_mem_members hm hclosed) hclosed
    rw [hu'] at hpasses
    obtain ⟨hpasses', v, hv, hvname⟩ := hu.passesOnTo hpasses
    exact .member h.node'.node hobject hm hformatter hclosed (hu' ▸ hpasses')
      (hvname ▸ ih hv hvname)

theorem isBlocked_eq (h : Shared s a b t) :
    (a.choices s).verdict.isBlocked (s.assembly.typeName t) =
      (b.choices s).verdict.isBlocked (s.assembly.typeName t) := by
  rw [Bool.eq_iff_iff, h.left.isBlocked_iff, h.right.isBlocked_iff]
  exact ⟨h.blocked, h.symm.blocked⟩

/-! ### Strategies -/

theorem parts_eq (h : Shared s a b t) :
    (a.choices s).parts (s.nodeOf t) = (b.choices s).parts (s.nodeOf t) := by
  rw [StrategySetting.parts, StrategySetting.parts, nodeOf_name, h.isBlocked_eq]

theorem part (h : Shared s a b t) {part : TypeName}
    (hpart : part ∈ (a.choices s).parts (s.nodeOf t)) :
    ∃ u, Shared s a b u ∧ s.assembly.typeName u = part := by
  obtain ⟨-, u, hu, rfl, -⟩ := h.node.part h.left hpart
  rw [h.parts_eq] at hpart
  obtain ⟨-, v, hv, hname, -⟩ := h.node'.part h.right hpart
  obtain rfl : u = v := h.left.complete.wellFormed.distinct.eq_of_typeName_eq hu.fits hv.fits
    hu.isClosed hname.symm
  exact ⟨u, ⟨h.left, h.right, hu, hv⟩, rfl⟩

theorem fullStrategy_eq (h : Shared s a b t) :
    (a.choices s).fullStrategy (s.nodeOf t) = (b.choices s).fullStrategy (s.nodeOf t) := by
  refine StrategySetting.fullStrategy_congr ?_ rfl fun shape hkind r hr => ?_
  · rw [nodeOf_name, h.isBlocked_eq]
  · rw [nodeOf_kind] at hkind
    obtain ⟨hu, hname⟩ := h.of_mem_refs (Node.mem_refs_of_mem_elements hr)
      (isClosed_of_mem_elements hkind h.node.isClosed hr)
    rw [hname]
    exact hu.node?_eq

/-- A shared type that should get no formatter by one analysis should get none by the other. -/
theorem unresolvable (h : Shared s a b t)
    (hunresolvable : (a.choices s).Unresolvable (s.assembly.typeName t)) :
    (b.choices s).Unresolvable (s.assembly.typeName t) := by
  generalize hname : s.assembly.typeName t = name at hunresolvable
  induction hunresolvable generalizing t with
  | self hnode hfull =>
    subst hname
    obtain rfl := h.node.eq_node hnode
    exact .self h.node'.node (h.fullStrategy_eq ▸ hfull)
  | part hnode hpart _ ih =>
    subst hname
    obtain rfl := h.node.eq_node hnode
    obtain ⟨u, hu, hname⟩ := h.part hpart
    exact .part h.node'.node (h.parts_eq ▸ hpart) (ih hu hname)

/-- Two analyses give a shared type the same strategy exactly when they agree on whether they choose
it too early, if it should get no formatter at all. -/
theorem strategyAt_eq_iff (h : Shared s a b t) :
    (a.choices s).strategyAt (s.assembly.typeName t) =
        (b.choices s).strategyAt (s.assembly.typeName t) ↔
      ((a.choices s).Unresolvable (s.assembly.typeName t) →
        (a.ChoosesTooEarly s (s.assembly.typeName t) ↔
          b.ChoosesTooEarly s (s.assembly.typeName t))) := by
  have hnone := StrategySetting.strategyAt_eq_unresolved_iff
    (TypeGraph.mem_names_of_node? h.node.node : _ ∈ (a.choices s).graph.names)
  have hnone' := StrategySetting.strategyAt_eq_unresolved_iff
    (TypeGraph.mem_names_of_node? h.node'.node : _ ∈ (b.choices s).graph.names)
  constructor
  · intro heq hunresolvable
    have hunresolvable' := h.unresolvable hunresolvable
    rw [heq] at hnone
    have hagree := hnone.symm.trans hnone'
    simp only [hunresolvable, hunresolvable', true_and, not_iff_not] at hagree
    exact hagree
  · intro hagree
    by_cases hleft : (a.choices s).strategyAt (s.assembly.typeName t) = .unresolved
    · obtain ⟨hunresolvable, hnot⟩ := hnone.mp hleft
      rw [hleft, eq_comm, hnone']
      exact ⟨h.unresolvable hunresolvable, mt (hagree hunresolvable).mpr hnot⟩
    · have hright : (b.choices s).strategyAt (s.assembly.typeName t) ≠ .unresolved := by
        intro hright
        obtain ⟨hunresolvable', hnot⟩ := hnone'.mp hright
        have hunresolvable := h.symm.unresolvable hunresolvable'
        exact hleft (hnone.mpr ⟨hunresolvable, mt (hagree hunresolvable).mp hnot⟩)
      rw [StrategySetting.strategyAt_eq_fullStrategy h.node.node hleft,
        StrategySetting.strategyAt_eq_fullStrategy h.node'.node hright, h.fullStrategy_eq]

/-! ### Types that do not come back to themselves -/

/-- What a shared type leads to by way of its parts is shared, and it leads there in the other
analysis too. -/
theorem leadsTo (h : Shared s a b t) {name : TypeName}
    (hleads : (a.choices s).LeadsTo (s.assembly.typeName t) name) :
    (b.choices s).LeadsTo (s.assembly.typeName t) name ∧
      ∃ u, Shared s a b u ∧ s.assembly.typeName u = name := by
  induction hleads with
  | refl => exact ⟨.refl, t, h, rfl⟩
  | tail _ hlast ih =>
    obtain ⟨hbefore, u, hu, rfl⟩ := ih
    obtain ⟨node, hnode, hpart⟩ := hlast
    obtain rfl := hu.node.eq_node hnode
    exact ⟨hbefore.tail ⟨_, hu.node'.node, hu.parts_eq ▸ hpart⟩, hu.part hpart⟩

/-- A shared type that firmly gets no formatter in one analysis firmly gets none in the other. -/
theorem firmlyUnresolvable (h : Shared s a b t)
    (hfirm : (a.choices s).FirmlyUnresolvable (s.assembly.typeName t)) :
    (b.choices s).FirmlyUnresolvable (s.assembly.typeName t) := by
  generalize hname : s.assembly.typeName t = name at hfirm
  induction hfirm generalizing t with
  | self hnode hfull =>
    subst hname
    obtain rfl := h.node.eq_node hnode
    exact .self h.node'.node (h.fullStrategy_eq ▸ hfull)
  | part hnode hpart hback _ ih =>
    subst hname
    obtain rfl := h.node.eq_node hnode
    obtain ⟨u, hu, rfl⟩ := h.part hpart
    exact .part h.node'.node (h.parts_eq ▸ hpart)
      (fun hleads => hback (hu.symm.leadsTo hleads).1) (ih hu rfl)

/-- Analyses agree on a type that leads to no type that comes back to itself. -/
theorem strategyAt_eq_of_acyclic (h : Shared s a b t)
    (hacyclic : ∀ other part, (a.choices s).LeadsTo (s.assembly.typeName t) other →
      (a.choices s).HasPart other part → ¬ (a.choices s).LeadsTo part other) :
    (a.choices s).strategyAt (s.assembly.typeName t) =
      (b.choices s).strategyAt (s.assembly.typeName t) := by
  rw [h.strategyAt_eq_iff]
  intro hunresolvable
  have hfirm := hunresolvable.firmly hacyclic
  have hnone := (StrategySetting.strategyAt_eq_unresolved_iff
    (TypeGraph.mem_names_of_node? h.node.node)).mp hfirm.strategyAt_eq
  have hnone' := (StrategySetting.strategyAt_eq_unresolved_iff
    (TypeGraph.mem_names_of_node? h.node'.node)).mp (h.firmlyUnresolvable hfirm).strategyAt_eq
  exact iff_of_false hnone.2 hnone'.2

end Shared

end Setting.Analyzed

namespace Setting

variable {s : Setting} {a b : Analysis}

/-- In a loaded assembly the analyses of two roots give a closed type that both find the same
strategy exactly when they agree on whether they choose it too early, if it should get no formatter
at all. -/
theorem strategyOf?_eq_iff_choosesTooEarly {documents : List Document}
    (hload : Assembly.load documents = .ok s.assembly) {control control' : RunControl}
    {root root' : Symbol} (hroot : root.index < s.assembly.defs.size)
    (hroot' : root'.index < s.assembly.defs.size) (hanalyze : s.analyze control root = .ok a)
    (hanalyze' : s.analyze control' root' = .ok b) {node node' : Node}
    (hnode : node ∈ a.graph.nodes) (hnode' : node' ∈ b.graph.nodes) (hname : node'.name = node.name)
    (hclosed : node.self.type.isClosed = true) :
    a.strategyOf? node.name = b.strategyOf? node.name ↔
      ((a.choices s).Unresolvable node.name →
        (a.ChoosesTooEarly s node.name ↔ b.ChoosesTooEarly s node.name)) := by
  have h := analyzed_of_analyze hload hroot hanalyze
  have h' := analyzed_of_analyze hload hroot' hanalyze'
  obtain ⟨t, ht, rfl⟩ := h.complete.made node hnode
  rw [nodeOf_self, named_type] at hclosed
  rw [nodeOf_name] at hname ⊢
  have hfound : s.assembly.typeName t ∈ a.graph.names :=
    TypeGraph.mem_names_iff.mpr ⟨_, hnode, nodeOf_name⟩
  have hfound' : s.assembly.typeName t ∈ b.graph.names :=
    TypeGraph.mem_names_iff.mpr ⟨_, hnode', hname⟩
  have hshared : Analyzed.Shared s a b t :=
    ⟨h, h', ⟨ht, hclosed, h.complete.node?_typeName ht hclosed hfound⟩,
      ⟨ht, hclosed, h'.complete.node?_typeName ht hclosed hfound'⟩⟩
  rw [h.strategyOf?_eq hfound, h'.strategyOf?_eq hfound', Option.some.injEq,
    hshared.strategyAt_eq_iff]

/-- Two unions that are variants of each other, the first with a faulty class besides: it has a
public member without a key. -/
def mutualDocument : Document where
  types := [
    { name := "App.First", kind := .interface,
      attributes := [
        .full "MessagePack.UnionAttribute"
          [.value (.number (.integer 0)), .typeOf "App.Second"],
        .full "MessagePack.UnionAttribute"
          [.value (.number (.integer 1)), .typeOf "App.Faulty"]] },
    { name := "App.Second", kind := .interface,
      attributes := [
        .full "MessagePack.UnionAttribute"
          [.value (.number (.integer 0)), .typeOf "App.First"]] },
    { name := "App.Faulty", kind := .concreteClass,
      attributes := [.bare "MessagePack.MessagePackObjectAttribute"],
      members := [{ name := "Loose", type := some "System.Int32" }] }]

def mutualDefs : List TypeDef := [
  { name := "App.First", kind := .interface, generics := [], base := none, underlying := none,
    attributes := [⟨⟨94⟩, [.int 0, .type (.named ⟨97⟩ [])]⟩,
      ⟨⟨94⟩, [.int 1, .type (.named ⟨98⟩ [])]⟩],
    members := [] },
  { name := "App.Second", kind := .interface, generics := [], base := none, underlying := none,
    attributes := [⟨⟨94⟩, [.int 0, .type (.named ⟨96⟩ [])]⟩], members := [] },
  { name := "App.Faulty", kind := .concreteClass, generics := [], base := none,
    underlying := none, attributes := [⟨⟨90⟩, []⟩],
    members := [
      { name := "Loose", kind := .property, type := some (.named ⟨5⟩ []), params := [],
        access := .everyone, isStatic := false, attributes := [] }] }]

def mutualSetting : Setting := .ofDefs mutualDefs {}

/-- The types of `mutualDocument` from one of its unions on, the other one next. -/
def mutualGraph (root other : Symbol) : TypeGraph :=
  ⟨#[mutualSetting.nodeOf (.named root []), mutualSetting.nodeOf (.named other []),
    mutualSetting.nodeOf (.named ⟨98⟩ []), mutualSetting.nodeOf (.named ⟨5⟩ [])]⟩

/-- The choice of strategies from a graph in which the faulty class is blocked. -/
def mutualChoices (graph : TypeGraph) : StrategySetting :=
  ⟨graph, ⟨(mutualSetting.verdictOn graph).findings, [.named "App.Faulty" []]⟩, false⟩

theorem loads_mutualDocument : Assembly.load [mutualDocument] = .ok mutualSetting.assembly ∧
    of? mutualSetting.assembly [] {} = some mutualSetting :=
  loads_ofDefs (by decide +kernel) (toOption_eq_some_iff.mp (by decide +kernel)) {}

/-- The analysis of a union of `mutualDocument` has both unions and blocks the faulty class. -/
theorem exists_analyze_mutual {root other : Symbol}
    (hroot : root.index < mutualSetting.assembly.defs.size)
    (hgraph : mutualSetting.graphOf {} root = .ok (mutualGraph root other))
    (hblocked : (mutualSetting.verdictOn (mutualGraph root other)).blocked =
      [.named "App.Faulty" []]) :
    ∃ a, mutualSetting.analyze {} root = .ok a ∧ a.graph = mutualGraph root other ∧
      ∀ name ∈ (mutualGraph root other).names,
        a.strategyOf? name = some ((mutualChoices (mutualGraph root other)).strategyAt name) := by
  obtain ⟨a, hanalyze, ha⟩ := exists_analyze_eq_ok hgraph
  have h := analyzed_of_analyze loads_mutualDocument.1 hroot hanalyze
  refine ⟨a, hanalyze, ha, fun name hname => ?_⟩
  have hchoices : a.choices mutualSetting = mutualChoices (mutualGraph root other) := by
    rw [Analysis.choices, strategySetting, h.verdict, ha, mutualChoices, ← hblocked]
    rfl
  rw [h.strategyOf?_eq (ha ▸ hname), hchoices]

theorem exists_analyze_first : ∃ a, mutualSetting.analyze {} ⟨96⟩ = .ok a ∧
    a.graph = mutualGraph ⟨96⟩ ⟨97⟩ ∧
    a.strategyOf? (mutualSetting.nodeOf (.named ⟨97⟩ [])).name ≠ some .unresolved := by
  have hblocked : (mutualSetting.verdictOn (mutualGraph ⟨96⟩ ⟨97⟩)).blocked =
      [.named "App.Faulty" []] := by
    rw [verdictOn, TypeGraph.blocked_ofGraph_of_keep (by decide +kernel)]
    decide +kernel
  obtain ⟨a, hanalyze, ha, hall⟩ := exists_analyze_mutual (by decide +kernel)
    (TypeGraph.graphOf_eq_ok rfl (by decide +kernel)) hblocked
  refine ⟨a, hanalyze, ha, ?_⟩
  rw [hall _ (by decide +kernel)]
  decide +kernel

theorem exists_analyze_second : ∃ a, mutualSetting.analyze {} ⟨97⟩ = .ok a ∧
    a.graph = mutualGraph ⟨97⟩ ⟨96⟩ ∧
    a.strategyOf? (mutualSetting.nodeOf (.named ⟨97⟩ [])).name = some .unresolved := by
  have hblocked : (mutualSetting.verdictOn (mutualGraph ⟨97⟩ ⟨96⟩)).blocked =
      [.named "App.Faulty" []] := by
    rw [verdictOn, TypeGraph.blocked_ofGraph_of_keep (by decide +kernel)]
    decide +kernel
  obtain ⟨a, hanalyze, ha, hall⟩ := exists_analyze_mutual (by decide +kernel)
    (TypeGraph.graphOf_eq_ok rfl (by decide +kernel)) hblocked
  refine ⟨a, hanalyze, ha, ?_⟩
  rw [hall _ (by decide +kernel)]
  decide +kernel

theorem strategyOf?_second_eq_iff :
    Assembly.load [mutualDocument] = .ok mutualSetting.assembly ∧
      97 < mutualSetting.assembly.defs.size ∧ ∃ a b, mutualSetting.analyze {} ⟨96⟩ = .ok a ∧
        mutualSetting.analyze {} ⟨97⟩ = .ok b ∧
        mutualSetting.nodeOf (.named ⟨97⟩ []) ∈ a.graph.nodes ∧
        mutualSetting.nodeOf (.named ⟨97⟩ []) ∈ b.graph.nodes ∧
        (mutualSetting.nodeOf (.named ⟨97⟩ [])).self.type.isClosed = true ∧
        (a.strategyOf? (mutualSetting.nodeOf (.named ⟨97⟩ [])).name =
            b.strategyOf? (mutualSetting.nodeOf (.named ⟨97⟩ [])).name ↔
          ((a.choices mutualSetting).Unresolvable (mutualSetting.nodeOf (.named ⟨97⟩ [])).name →
            (a.ChoosesTooEarly mutualSetting (mutualSetting.nodeOf (.named ⟨97⟩ [])).name ↔
              b.ChoosesTooEarly mutualSetting (mutualSetting.nodeOf (.named ⟨97⟩ [])).name))) := by
  obtain ⟨a, hanalyze, ha, -⟩ := exists_analyze_first
  obtain ⟨b, hanalyze', hb, -⟩ := exists_analyze_second
  have hsize : 97 < mutualSetting.assembly.defs.size := by decide +kernel
  have hnode : mutualSetting.nodeOf (.named ⟨97⟩ []) ∈ a.graph.nodes := by
    rw [ha, mutualGraph]
    exact Array.mem_iff_getElem?.mpr ⟨1, rfl⟩
  have hnode' : mutualSetting.nodeOf (.named ⟨97⟩ []) ∈ b.graph.nodes := by
    rw [hb, mutualGraph]
    exact Array.mem_iff_getElem?.mpr ⟨0, rfl⟩
  have hclosed : (mutualSetting.nodeOf (.named ⟨97⟩ [])).self.type.isClosed = true := by
    rw [nodeOf_self, named_type]
    rfl
  exact ⟨loads_mutualDocument.1, hsize, a, b, hanalyze, hanalyze', hnode, hnode', hclosed,
    strategyOf?_eq_iff_choosesTooEarly loads_mutualDocument.1 (by decide +kernel) hsize hanalyze
      hanalyze' hnode hnode' rfl hclosed⟩

/-- The second union of `mutualDocument` gets a strategy from the analysis of the first one, and
none from its own. -/
theorem second_depends_on_root :
    Assembly.load [mutualDocument] = .ok mutualSetting.assembly ∧
      of? mutualSetting.assembly [] {} = some mutualSetting ∧
      ∃ a b, mutualSetting.analyze {} ⟨96⟩ = .ok a ∧ mutualSetting.analyze {} ⟨97⟩ = .ok b ∧
        mutualSetting.nodeOf (.named ⟨97⟩ []) ∈ a.graph.nodes ∧
        mutualSetting.nodeOf (.named ⟨97⟩ []) ∈ b.graph.nodes ∧
        (mutualSetting.nodeOf (.named ⟨97⟩ [])).self.type.isClosed = true ∧
        a.strategyOf? (mutualSetting.nodeOf (.named ⟨97⟩ [])).name ≠
          b.strategyOf? (mutualSetting.nodeOf (.named ⟨97⟩ [])).name := by
  obtain ⟨a, hanalyze, ha, hfirst⟩ := exists_analyze_first
  obtain ⟨b, hanalyze', hb, hsecond⟩ := exists_analyze_second
  refine ⟨loads_mutualDocument.1, loads_mutualDocument.2, a, b, hanalyze, hanalyze', ?_, ?_, ?_, ?_⟩
  · rw [ha, mutualGraph]
    exact Array.mem_iff_getElem?.mpr ⟨1, rfl⟩
  · rw [hb, mutualGraph]
    exact Array.mem_iff_getElem?.mpr ⟨0, rfl⟩
  · rw [nodeOf_self, named_type]
    rfl
  · rw [hsecond]
    exact hfirst

end Setting

end FormatterPlan
