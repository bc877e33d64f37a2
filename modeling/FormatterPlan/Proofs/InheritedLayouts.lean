import FormatterPlan.Proofs.BaseChains
import FormatterPlan.Proofs.ClosedTypes

/-! Inherited layouts.  The layout of an object begins with the layout of its base, which is
computed on the way up from the object and again from the base itself.  Both ways put the same
arguments in, so the members are the same but for where they come from. -/

namespace FormatterPlan

/-- A member of a base as it is inherited.  What the base has inherited itself keeps its origin. -/
def NodeMember.inheritedFrom (base : TypeName) (attributed : Bool) (m : NodeMember) : NodeMember :=
  match m.origin with
  | .own => { m with origin := .inherited base attributed }
  | .inherited .. => m

/-- What is inherited already stays as it is. -/
theorem NodeMember.inheritedFrom_inheritedFrom (base base' : TypeName)
    (attributed attributed' : Bool) (m : NodeMember) :
    (m.inheritedFrom base attributed).inheritedFrom base' attributed' =
      m.inheritedFrom base attributed := by
  obtain ⟨name, declared, access, key, formatter, origin⟩ := m
  cases origin <;> rfl

namespace Setting

variable {s : Setting} {t u : Ty} {symbol : Symbol} {keysAsNames : Bool}

/-! ### The members of a level -/

/-- The members that the declaration of a type is written with, in the order of declaration. -/
def ownMembers (s : Setting) (keysAsNames : Bool) (t : Ty) : List NodeMember :=
  (s.dataAt t).filterMap fun m => m.type.bind fun type =>
    (s.writtenKey? keysAsNames m).map (s.nodeMember ⟨s.named t, .own⟩ m type)

theorem membersOf_eq_map (origin : MemberOrigin) :
    (s.membersOf keysAsNames ⟨s.named t, origin⟩).1 =
      (s.ownMembers keysAsNames t).map ({ · with origin }) := by
  rw [membersOf_fst, ownMembers, List.map_filterMap, List.filterMap_eq_flatMap_toList]
  refine List.flatMap_congr fun m _ => ?_
  rw [memberOf_fst]
  cases m.type with
  | none => rfl
  | some type => cases s.writtenKey? keysAsNames m <;> rfl

theorem origin_of_mem_ownMembers {n : NodeMember} (h : n ∈ s.ownMembers keysAsNames t) :
    n.origin = .own := by
  obtain ⟨m, -, hm⟩ := List.mem_filterMap.mp h
  obtain ⟨type, -, hkey⟩ := Option.bind_eq_some_iff.mp hm
  obtain ⟨key, -, rfl⟩ := Option.map_eq_some_iff.mp hkey
  rfl

theorem membersOf_own :
    (s.membersOf keysAsNames ⟨s.named t, .own⟩).1 = s.ownMembers keysAsNames t := by
  rw [membersOf_eq_map]
  calc (s.ownMembers keysAsNames t).map ({ · with origin := .own })
    _ = (s.ownMembers keysAsNames t).map id :=
      List.map_congr_left fun n hn => by rw [← origin_of_mem_ownMembers hn, id]
    _ = s.ownMembers keysAsNames t := List.map_id _

theorem membersOf_baseLevel :
    (s.membersOf keysAsNames (s.baseLevel u)).1 = (s.ownMembers keysAsNames u).map
      (·.inheritedFrom (s.assembly.typeName u) (s.isMarked u)) := by
  rw [baseLevel, membersOf_eq_map]
  refine List.map_congr_left fun n hn => ?_
  rw [NodeMember.inheritedFrom, origin_of_mem_ownMembers hn, named_name]

/-- What the levels above a type have is inherited already. -/
theorem map_inheritedFrom_basesOf (base : TypeName) (attributed : Bool) :
    ((s.basesOf t).1.reverse.flatMap fun level => (s.membersOf keysAsNames level).1).map
        (·.inheritedFrom base attributed) =
      (s.basesOf t).1.reverse.flatMap fun level => (s.membersOf keysAsNames level).1 := by
  rw [List.map_flatMap]
  refine List.flatMap_congr fun level hlevel => ?_
  obtain ⟨u, -, rfl⟩ := above_of_mem_basesAbove (List.mem_reverse.mp hlevel)
  rw [membersOf_baseLevel, List.map_map]
  exact List.map_congr_left fun n _ => NodeMember.inheritedFrom_inheritedFrom ..

/-! ### The layout of an object and of its base -/

theorem nodeOf_members_eq_append {isOpen : Bool} (hkind : s.kindOf t = .object keysAsNames isOpen) :
    (s.nodeOf t).members =
      ((s.basesOf t).1.reverse.flatMap fun level => (s.membersOf keysAsNames level).1) ++
        s.ownMembers keysAsNames t := by
  rw [nodeOf_members, hkind, NodeKind.isObject, if_pos rfl, levelsOf, List.reverse_cons,
    List.flatMap_append, List.flatMap_singleton, NodeKind.keysAsNames, membersOf_own]

/-- The bases of a closed object are closed. -/
theorem nodeOf_bases_of_isClosed (hwf : s.assembly.WellFormed) (ht : t.Fits s.assembly Ty.AnyParam)
    (hclosed : t.isClosed = true) (hobject : (s.kindOf t).isObject = true) :
    (s.nodeOf t).bases = (s.basesOf t).1.map (·.type) := by
  rw [nodeOf_bases, if_pos hobject, List.filter_eq_self]
  intro r hr
  obtain ⟨level, hlevel, rfl⟩ := List.mem_map.mp hr
  obtain ⟨u, habove, rfl⟩ := above_of_mem_basesAbove hlevel
  exact (habove.fits hwf (ht.noParam hclosed)).isClosed

/-- Whether the layout of an object is that of its base with its own members added. -/
structure ExtendsLayout (s : Setting) (keysAsNames : Bool) (node base : Node) : Prop where
  members : node.members =
    base.members.map (·.inheritedFrom base.name (s.isMarked base.self.type)) ++
      s.ownMembers keysAsNames node.self.type
  bases : node.bases = base.self :: base.bases

theorem IsBase.extendsLayout (hwf : s.assembly.WellFormed) (ht : t.Fits s.assembly Ty.AnyParam)
    (hbase : s.IsBase t u symbol) (honce : s.VisitsOnce t)
    (hkind : s.kindOf t = .object keysAsNames false)
    (hkind' : s.kindOf u = .object keysAsNames false) :
    s.ExtendsLayout keysAsNames (s.nodeOf t) (s.nodeOf u) := by
  have hu := (hbase.fits hwf ht).1
  have hchain := hbase.basesOf_eq_cons hwf ht honce
  have hclosed : t.isClosed = true := by simpa using isOpen_eq (.inl ⟨_, hkind⟩)
  have hclosed' : u.isClosed = true := by simpa using isOpen_eq (.inl ⟨_, hkind'⟩)
  constructor
  case members =>
    rw [nodeOf_members_eq_append hkind, nodeOf_members_eq_append hkind', List.map_append,
      map_inheritedFrom_basesOf, nodeOf_name, nodeOf_self, named_type, ← membersOf_baseLevel,
      hchain, List.reverse_cons, List.flatMap_append, List.flatMap_singleton, nodeOf_self,
      named_type]
  case bases =>
    rw [nodeOf_bases_of_isClosed hwf ht hclosed (by rw [hkind]; rfl),
      nodeOf_bases_of_isClosed hwf hu hclosed' (by rw [hkind']; rfl), hchain, List.map_cons,
      nodeOf_self, baseLevel]

end Setting

namespace TypeGraph

variable {s : Setting} {graph : TypeGraph}

/-- The layout of an object begins with that of its first base, if that is an object with the same
policy for keys and no declaration comes twice in the chain. -/
theorem extendsLayout_of_graphOf {documents : List Document}
    (hload : Assembly.load documents = .ok s.assembly) {control : RunControl} {root : Symbol}
    (hroot : root.index < s.assembly.defs.size) (hgraph : s.graphOf control root = .ok graph)
    {node base : Node} {r : NamedType} {keysAsNames : Bool} (hnode : node ∈ graph.nodes)
    (hkind : node.kind = .object keysAsNames false) (honce : s.VisitsOnce node.self.type)
    (hfirst : node.bases.head? = some r) (hbase : graph.node? r.name = some base)
    (hkind' : base.kind = .object keysAsNames false) : s.ExtendsLayout keysAsNames node base := by
  have hwf := Assembly.wellFormed_of_load hload
  have hg := complete_of_graphOf hwf hroot hgraph
  obtain ⟨t, ht, rfl⟩ := hg.made node hnode
  rw [Setting.nodeOf_kind] at hkind
  rw [Setting.nodeOf_self, Setting.named_type] at honce
  have hclosed : t.isClosed = true := by simpa using Setting.isOpen_eq (.inl ⟨_, hkind⟩)
  rw [Setting.nodeOf_bases_of_isClosed hwf ht hclosed (by rw [hkind]; rfl), List.head?_map,
    Option.map_eq_some_iff] at hfirst
  obtain ⟨level, hlevel, rfl⟩ := hfirst
  obtain ⟨u, symbol, hisbase, rfl⟩ := Setting.exists_isBase_of_head? hwf ht hlevel
  have hu := (hisbase.fits hwf (ht.noParam hclosed)).1
  have hnodeOf := hg.node?_typeName hu.anyParam hu.isClosed (mem_names_of_node? hbase)
  obtain rfl : base = s.nodeOf u := Option.some.inj (hbase.symm.trans hnodeOf)
  rw [Setting.nodeOf_kind] at hkind'
  exact hisbase.extendsLayout hwf ht honce hkind hkind'

/-- The middle class of `leafDocument` at the instantiation from which its leaf is derived: its base
has lists of its argument as argument. -/
theorem leafGraph_extendsLayout :
    Assembly.load [leafDocument] = .ok leafSetting.assembly ∧
      98 < leafSetting.assembly.defs.size ∧ leafSetting.graphOf {} ⟨98⟩ = .ok leafGraph ∧
      leafSetting.nodeOf (.named ⟨97⟩ [.named ⟨5⟩ []]) ∈ leafGraph.nodes ∧
      leafSetting.VisitsOnce (.named ⟨97⟩ [.named ⟨5⟩ []]) ∧
      ((leafSetting.nodeOf (.named ⟨97⟩ [.named ⟨5⟩ []])).members.map fun m =>
        (m.name, m.declared.type)) =
          [("Content", .array (.named ⟨32⟩ [.named ⟨5⟩ []]) 1),
            ("Extra", .named ⟨45⟩ [.named ⟨25⟩ [], .named ⟨5⟩ []])] ∧
      leafSetting.ExtendsLayout false (leafSetting.nodeOf (.named ⟨97⟩ [.named ⟨5⟩ []]))
        (leafSetting.nodeOf (.named ⟨96⟩ [.named ⟨32⟩ [.named ⟨5⟩ []]])) := by
  have hload := loads_leafDocument.1
  have hroot : 98 < leafSetting.assembly.defs.size := by decide +kernel
  have hgraph : leafSetting.graphOf {} ⟨98⟩ = .ok leafGraph :=
    graphOf_eq_ok rfl (by decide +kernel)
  have hwf := Assembly.wellFormed_of_load hload
  have hnode : leafSetting.nodeOf (.named ⟨97⟩ [.named ⟨5⟩ []]) ∈ leafGraph.nodes := by
    simp [leafGraph]
  have honce : leafSetting.VisitsOnce (.named ⟨97⟩ [.named ⟨5⟩ []]) :=
    (Setting.visitsOnce_iff hwf ((complete_of_graphOf hwf hroot hgraph).fits_of_mem hnode)).mpr
      (by decide +kernel)
  refine ⟨hload, hroot, hgraph, hnode, honce, by decide +kernel, ?_⟩
  exact extendsLayout_of_graphOf hload hroot hgraph hnode (by decide +kernel)
    (by rwa [Setting.nodeOf_self, Setting.named_type])
    (r := leafSetting.named (.named ⟨96⟩ [.named ⟨32⟩ [.named ⟨5⟩ []]])) (by decide +kernel)
    (by decide +kernel) (by decide +kernel)

end TypeGraph

end FormatterPlan
