import FormatterPlan.Proofs.LeastBlocked
import FormatterPlan.Proofs.SoundObjects

/-! Which members of an object are planned.  The members to be written are those of the object and
its bases that are not ignored and are public or have a key attribute.  Those without a key are left
out of the plan without a word, so all are planned only if each has a key.  The checks see to that,
except for the members of a base that is marked as an object: these are left to the checks of the
base, which are not made if the base is not written as an object, and which take a member to have
its name as key if that is the policy of the base. -/

namespace FormatterPlan

namespace Setting

variable {s : Setting} {t u : Ty} {keysAsNames : Bool}

/-- Whether a data member is to be written: it is not ignored, and it is public or has a key
attribute. -/
def isToWrite (s : Setting) (m : Member) : Bool :=
  !s.roles.isIgnored m.attributes &&
    (m.access = .everyone || (Roles.find? s.roles.key m.attributes).isSome)

/-- The members to be written of a type and its bases, those of the outermost base first. -/
def membersToWrite (s : Setting) (t : Ty) : List (Level × Member) :=
  (s.levelsOf t).reverse.flatMap fun level =>
    ((s.dataAt level.type.type).filter s.isToWrite).map (level, ·)

/-- Whether a planned member is the plan of a member of a level. -/
structure IsPlanOf (s : Setting) (keysAsNames : Bool) (declared : Level × Member)
    (p : PlannedMember) : Prop where
  name : p.name = declared.2.name
  type : ∃ type, declared.2.type = some type ∧
    p.declared = s.assembly.typeName (type.subst declared.1.type.type.args)
  key : s.writtenKey? keysAsNames declared.2 = some (match p.key with
    | .int n => .int n
    | .string text => .string text)

/-- Whether planned members are the plans of all members to be written, one of each. -/
def AllPlanned (s : Setting) (t : Ty) (planned : List PlannedMember) : Prop :=
  ∃ order, planned.Perm order ∧
    List.Forall₂ (s.IsPlanOf (s.kindOf t).keysAsNames) (s.membersToWrite t) order

/-- Whether the checks of a base make sure that its members have keys in a derived object. -/
def ChecksKeysFor (s : Setting) (u : Ty) (keysAsNames : Bool) : Prop :=
  (s.kindOf u).isObject = true ∧ ((s.kindOf u).keysAsNames = true → keysAsNames = true)

/-! ### Members of nodes and members to be written -/

/-- A member of a node and the member of a level that it comes from. -/
def ComesFrom (s : Setting) (keysAsNames : Bool) (declared : Level × Member) (n : NodeMember) :
    Prop :=
  ∃ type key, declared.2.type = some type ∧ s.writtenKey? keysAsNames declared.2 = some key ∧
    n = s.nodeMember declared.1 declared.2 type key

/-- Without defects the members to be written are those that are written. -/
theorem isToWrite_iff {level : Level} {m : Member}
    (hdefects : (s.memberOf keysAsNames level m).2 = []) (htype : m.type.isSome = true) :
    s.isToWrite m = true ↔ (s.writtenKey? keysAsNames m).isSome = true := by
  rw [isSome_writtenKey?_iff, IsWritten, isToWrite]
  cases hignored : s.roles.isIgnored m.attributes with
  | true => simp
  | false =>
    cases hkey : Roles.find? s.roles.key m.attributes with
    | none => simp
    | some a =>
      rcases keyOf_attribute keysAsNames (level.type.name.text ++ "." ++ m.name) hignored hkey
        with ⟨key, hsome, -, -⟩ | ⟨-, defect, heq⟩
      · simp [hsome]
      · obtain ⟨type, htype⟩ := Option.isSome_iff_exists.mp htype
        simp [memberOf, htype, heq] at hdefects

/-- Without defects the members that a level contributes come from its members to be written. -/
theorem forall₂_membersOf {level : Level} (hdefects : (s.membersOf keysAsNames level).2 = [])
    (htyped : ∀ m ∈ s.dataAt level.type.type, m.type.isSome = true) :
    List.Forall₂ (s.ComesFrom keysAsNames)
      (((s.dataAt level.type.type).filter s.isToWrite).map (level, ·))
      (s.membersOf keysAsNames level).1 := by
  rw [membersOf_snd] at hdefects
  rw [membersOf_fst]
  generalize s.dataAt level.type.type = data at *
  induction data with
  | nil => exact .nil
  | cons m rest ih =>
    rw [List.flatMap_cons, List.append_eq_nil_iff] at hdefects
    have hrest := ih hdefects.2 fun other hother => htyped other (List.mem_cons_of_mem _ hother)
    have htype := htyped m List.mem_cons_self
    have hiff := isToWrite_iff hdefects.1 htype
    rw [List.filter_cons, List.flatMap_cons, memberOf_fst]
    obtain ⟨type, htype⟩ := Option.isSome_iff_exists.mp htype
    cases hkey : s.writtenKey? keysAsNames m with
    | none =>
      rw [hkey] at hiff
      rw [if_neg (by simpa using hiff), htype]
      exact hrest
    | some key =>
      rw [hkey] at hiff
      rw [if_pos (hiff.mpr rfl), htype]
      exact .cons ⟨type, key, htype, hkey, rfl⟩ hrest

/-- The defects of an object are those of its levels, among others. -/
theorem membersOf_snd_eq_nil (hobject : (s.kindOf t).isObject = true)
    (hdefects : (s.nodeOf t).defects = []) {level : Level} (hlevel : level ∈ s.levelsOf t) :
    (s.membersOf (s.kindOf t).keysAsNames level).2 = [] := by
  cases hkind : s.kindOf t with
  | object keysAsNames isOpen =>
    simp only [nodeOf, hkind, List.append_eq_nil_iff, List.flatMap_map] at hdefects
    refine List.flatMap_eq_nil_iff.mp hdefects.2 level ?_
    rw [List.mem_reverse]
    exact hlevel
  | _ => simp [hkind, NodeKind.isObject] at hobject

/-- Without defects the members of an object come from its members to be written, one by one. -/
theorem forall₂_nodeOf_members (hwf : s.assembly.WellFormed)
    (hobject : (s.kindOf t).isObject = true) (hdefects : (s.nodeOf t).defects = []) :
    List.Forall₂ (s.ComesFrom (s.kindOf t).keysAsNames) (s.membersToWrite t)
      (s.nodeOf t).members := by
  rw [nodeOf_members, if_pos hobject]
  refine forall₂_flatMap fun level hlevel => ?_
  rw [List.mem_reverse] at hlevel
  refine forall₂_membersOf (membersOf_snd_eq_nil hobject hdefects hlevel) fun m hm => ?_
  obtain ⟨symbol, d, -, hd, hmember, hdata⟩ := mem_dataAt hm
  exact ((hwf.defs symbol d hd).members m hmember).isSome_type hdata

/-! ### Plans of members -/

theorem ComesFrom.isPlanOf {declared : Level × Member} {n : NodeMember}
    (h : s.ComesFrom keysAsNames declared n) {p : PlannedMember}
    (hp : StrategySetting.plannedMember? n = some p) : s.IsPlanOf keysAsNames declared p := by
  obtain ⟨type, key, htype, hkey, rfl⟩ := h
  unfold StrategySetting.plannedMember? at hp
  cases key with
  | int n =>
    obtain rfl := Option.some.inj hp
    exact ⟨rfl, ⟨type, htype, rfl⟩, hkey⟩
  | string text =>
    obtain rfl := Option.some.inj hp
    exact ⟨rfl, ⟨type, htype, rfl⟩, hkey⟩
  | null => simp [nodeMember] at hp
  | unattributed => simp [nodeMember] at hp

/-- The members of a node that all have keys are planned one by one. -/
theorem forall₂_filterMap_plannedMember? {declared : List (Level × Member)}
    {members : List NodeMember}
    (h : List.Forall₂ (s.ComesFrom keysAsNames) declared members)
    (hkeyed : ∀ n ∈ members, n.key.isKeyed = true) :
    List.Forall₂ (s.IsPlanOf keysAsNames) declared
      (members.filterMap StrategySetting.plannedMember?) := by
  induction h with
  | nil => exact .nil
  | @cons first n _ _ hfirst _ ih =>
    have hsome : (StrategySetting.plannedMember? n).isSome = true := by
      rw [StrategySetting.isSome_plannedMember?]
      exact hkeyed n List.mem_cons_self
    obtain ⟨p, hp⟩ := Option.isSome_iff_exists.mp hsome
    rw [List.filterMap_cons_some hp]
    exact .cons (hfirst.isPlanOf hp) (ih fun m hm => hkeyed m (List.mem_cons_of_mem _ hm))

/-- All members to be written are planned when all members of the node have keys. -/
theorem Analyzed.WrittenAsObject.allPlanned_iff {a : Analysis}
    (hcomplete : TypeGraph.Complete s a.graph) {planned : List PlannedMember}
    (h : Analyzed.WrittenAsObject s a t keysAsNames planned) :
    s.AllPlanned t planned ↔ ∀ n ∈ (s.nodeOf t).members, n.key.isKeyed = true := by
  have hsound := h.isSoundObject
  have hall := forall₂_nodeOf_members hcomplete.wellFormed hsound.isObject hsound.findings.2.2.2
  constructor
  · rintro ⟨order, hperm, horder⟩
    have hlength : ((s.nodeOf t).members.filterMap StrategySetting.plannedMember?).length =
        (s.nodeOf t).members.length := by
      rw [← h.planned.length_eq, hperm.length_eq, ← horder.length_eq, hall.length_eq]
    intro n hn
    rw [← StrategySetting.isSome_plannedMember?]
    exact List.filterMap_length_eq_length.mp hlength n hn
  · intro hkeyed
    exact ⟨_, h.planned, forall₂_filterMap_plannedMember? hall hkeyed⟩

/-! ### Members without a key -/

/-- A policy that makes keys of names can only add keys. -/
theorem hasKey_of_imp {keysAsNames' : Bool} {m : Member}
    (himp : keysAsNames = true → keysAsNames' = true) (h : s.hasKey keysAsNames m = true) :
    s.hasKey keysAsNames' m = true := by
  unfold hasKey writtenKey? at h ⊢
  cases hignored : s.roles.isIgnored m.attributes with
  | true => simp [hignored] at h
  | false =>
    cases hkey : Roles.find? s.roles.key m.attributes with
    | some a => simpa [hignored, hkey] using h
    | none =>
      by_cases hpublic : m.access = .everyone
      · cases keysAsNames with
        | false => simp [hignored, hkey, hpublic, MemberKey.isKeyed] at h
        | true => simp [hpublic, himp rfl, MemberKey.isKeyed]
      · simp [hignored, hkey, hpublic] at h

theorem Analyzed.IsSoundObject.hasKey_of_mem_dataAt {a : Analysis}
    (h : Analyzed.IsSoundObject s a u) {m : Member} (hm : m ∈ s.dataAt u) {type : Ty}
    (htype : m.type = some type) (hwritten : s.IsWritten m) :
    s.hasKey (s.kindOf u).keysAsNames m = true := by
  obtain ⟨key, hkey, hn⟩ := exists_own_member h.isObject hm htype hwritten
  rw [hasKey, hkey]
  exact h.isKeyed hn (by simp [nodeMember])

/-- The members of a marked base have keys, unless its checks make sure of that. -/
def MarkedBasesHaveKeys (s : Setting) (t : Ty) : Prop :=
  ∀ u, s.Above t.symbol?.toList t u → s.isMarked u = true →
    ¬ s.ChecksKeysFor u (s.kindOf t).keysAsNames →
      ∀ m ∈ s.dataAt u, s.isToWrite m = true → s.hasKey (s.kindOf t).keysAsNames m = true

/-- What is to be written at a level of an object that is not blocked is written. -/
theorem Analyzed.IsSoundObject.isToWrite_iff {a : Analysis} (h : Analyzed.IsSoundObject s a t)
    {level : Level} (hlevel : level ∈ s.levelsOf t) {m : Member}
    (hm : m ∈ s.dataAt level.type.type) (htype : m.type.isSome = true) :
    s.isToWrite m = true ↔ (s.writtenKey? (s.kindOf t).keysAsNames m).isSome = true := by
  have hnil := membersOf_snd_eq_nil h.isObject h.findings.2.2.2 hlevel
  rw [membersOf_snd, List.flatMap_eq_nil_iff] at hnil
  exact Setting.isToWrite_iff (hnil m hm) htype

theorem Analyzed.IsSoundObject.isKeyed_iff {a : Analysis} (hcomplete : TypeGraph.Complete s a.graph)
    (h : Analyzed.IsSoundObject s a t) :
    (∀ n ∈ (s.nodeOf t).members, n.key.isKeyed = true) ↔ s.MarkedBasesHaveKeys t := by
  have hwf := hcomplete.wellFormed
  constructor
  · intro hkeyed u habove _ _ m hm hto
    have hlevel : s.baseLevel u ∈ s.levelsOf t :=
      (mem_levelsOf_iff hwf h.fits).mpr (.inr ⟨u, habove, rfl⟩)
    obtain ⟨symbol, d, -, hd, hmember, hdata⟩ := mem_dataAt hm
    have htyped := ((hwf.defs symbol d hd).members m hmember).isSome_type hdata
    obtain ⟨type, htype⟩ := Option.isSome_iff_exists.mp htyped
    obtain ⟨key, hkey⟩ :=
      Option.isSome_iff_exists.mp ((h.isToWrite_iff hlevel hm htyped).mp hto)
    have hn := hkeyed _ (mem_nodeOf_members_iff.mpr
      ⟨h.isObject, _, hlevel, m, hm, type, key, htype, hkey, rfl⟩)
    rw [hasKey, hkey]
    exact hn
  · intro hbases n hn
    obtain ⟨-, level, hlevel, m, hm, type, key, htype, hkey, rfl⟩ := mem_nodeOf_members_iff.mp hn
    rcases (mem_levelsOf_iff hwf h.fits).mp hlevel with rfl | ⟨u, habove, rfl⟩
    · exact h.isKeyed hn (by simp [nodeMember])
    cases hmarked : s.isMarked u with
    | false => exact h.isKeyed hn (by simp [nodeMember, baseLevel, hmarked])
    | true =>
      have hkeyed : s.hasKey (s.kindOf t).keysAsNames m = true := by
        by_cases hchecks : s.ChecksKeysFor u (s.kindOf t).keysAsNames
        · have hbase := h.base hcomplete habove hchecks.1
          exact hasKey_of_imp hchecks.2
            (hbase.hasKey_of_mem_dataAt hm htype (isSome_writtenKey?_iff.mp (by rw [hkey]; rfl)))
        · exact hbases u habove hmarked hchecks m hm
            ((h.isToWrite_iff hlevel hm (by rw [htype]; rfl)).mpr (by rw [hkey]; rfl))
      rw [hasKey, hkey] at hkeyed
      exact hkeyed

/-- In an analysis of a loaded assembly, the plan of an object has one plan for each member to be
written exactly when the members of its marked bases have keys, as far as the checks of the bases do
not make sure of that. -/
theorem allPlanned_iff_markedBasesHaveKeys {documents : List Document}
    (hload : Assembly.load documents = .ok s.assembly) {control : RunControl} {root : Symbol}
    (hroot : root.index < s.assembly.defs.size) {a : Analysis}
    (hanalyze : s.analyze control root = .ok a) {node : Node} (hnode : node ∈ a.graph.nodes)
    {layout : ObjectLayout} {planned : List PlannedMember}
    (hobject : a.strategyOf? node.name = some (.object layout planned)) :
    s.AllPlanned node.self.type planned ↔ s.MarkedBasesHaveKeys node.self.type := by
  have h := analyzed_of_analyze hload hroot hanalyze
  obtain ⟨t, keysAsNames, hname, hwritten, -⟩ := h.writtenAsObject hobject
  have hself : node = s.nodeOf t :=
    hwritten.eq_node ((TypeGraph.node?_eq_some_iff h.complete.distinct).mpr ⟨hnode, hname.symm⟩)
  rw [hself, nodeOf_self, named_type, hwritten.allPlanned_iff h.complete,
    hwritten.isSoundObject.isKeyed_iff h.complete]

/-- A class whose members have their names as keys, and a derived class that has keys only for
members with a key attribute. -/
def mixedDocument : Document where
  types := [
    { name := "App.Base", kind := .concreteClass,
      attributes := [.full "MessagePack.MessagePackObjectAttribute" [.value (.bool true)]],
      members := [{ name := "Loose", type := some "System.Int32" }] },
    { name := "App.Derived", kind := .concreteClass, base := some "App.Base",
      attributes := [.bare "MessagePack.MessagePackObjectAttribute"],
      members := [
        { name := "Own", type := some "System.Int32",
          attributes := [.full "MessagePack.KeyAttribute" [.value (.string "own")]] }] }]

def looseMember : Member where
  name := "Loose"
  kind := .property
  type := some (.named ⟨5⟩ [])
  params := []
  access := .everyone
  isStatic := false
  attributes := []

def ownMember : Member where
  name := "Own"
  kind := .property
  type := some (.named ⟨5⟩ [])
  params := []
  access := .everyone
  isStatic := false
  attributes := [⟨⟨91⟩, [.string "own"]⟩]

def mixedDefs : List TypeDef := [
  { name := "App.Base", kind := .concreteClass, generics := [], base := none, underlying := none,
    attributes := [⟨⟨90⟩, [.bool true]⟩], members := [looseMember] },
  { name := "App.Derived", kind := .concreteClass, generics := [], base := some (.named ⟨96⟩ []),
    underlying := none, attributes := [⟨⟨90⟩, []⟩], members := [ownMember] }]

def mixedSetting : Setting := .ofDefs mixedDefs {}

/-- The derived class of `mixedDocument`, its base and the type of their members. -/
def mixedGraph : TypeGraph :=
  ⟨#[mixedSetting.nodeOf (.named ⟨97⟩ []), mixedSetting.nodeOf (.named ⟨96⟩ []),
    mixedSetting.nodeOf (.named ⟨5⟩ [])]⟩

/-- The plan of the derived class, without the member of the base. -/
def mixedPlan : List PlannedMember :=
  [⟨"Own", .string "own", .named "System.Int32" [], .ofType⟩]

theorem loads_mixedDocument : Assembly.load [mixedDocument] = .ok mixedSetting.assembly ∧
    of? mixedSetting.assembly [] {} = some mixedSetting :=
  loads_ofDefs (by decide +kernel) (toOption_eq_some_iff.mp (by decide +kernel)) {}

theorem findingsOf_mixed : ∀ node ∈ mixedGraph.nodes.toList,
    mixedGraph.findingsOf mixedSetting.assembly mixedSetting.options.mapMode node = [] := by
  decide +kernel

/-- The derived class is written as an object. -/
theorem exists_analyze_mixed : ∃ a, mixedSetting.analyze {} ⟨97⟩ = .ok a ∧ a.graph = mixedGraph ∧
    mixedSetting.nodeOf (.named ⟨97⟩ []) ∈ a.graph.nodes ∧
    a.strategyOf? (mixedSetting.nodeOf (.named ⟨97⟩ [])).name = some (.object .keys mixedPlan) := by
  have hgraph : mixedSetting.graphOf {} ⟨97⟩ = .ok mixedGraph :=
    TypeGraph.graphOf_eq_ok rfl (by decide +kernel)
  have hplan : StrategySetting.objectStrategy mixedSetting.options.mapMode
      (mixedSetting.nodeOf (.named ⟨97⟩ [])) = .object .keys mixedPlan := by
    decide +kernel
  have hkind : mixedSetting.kindOf (.named ⟨97⟩ []) = .object false false := by decide +kernel
  rw [← hplan]
  exact exists_analyze_object loads_mixedDocument.1 (by decide +kernel) hgraph findingsOf_mixed
    (by decide +kernel) hkind (by decide +kernel)

theorem allPlanned_mixed_iff : Assembly.load [mixedDocument] = .ok mixedSetting.assembly ∧
    97 < mixedSetting.assembly.defs.size ∧ ∃ a, mixedSetting.analyze {} ⟨97⟩ = .ok a ∧
      mixedSetting.nodeOf (.named ⟨97⟩ []) ∈ a.graph.nodes ∧
      a.strategyOf? (mixedSetting.nodeOf (.named ⟨97⟩ [])).name = some (.object .keys mixedPlan) ∧
      (mixedSetting.AllPlanned (mixedSetting.nodeOf (.named ⟨97⟩ [])).self.type mixedPlan ↔
        mixedSetting.MarkedBasesHaveKeys (mixedSetting.nodeOf (.named ⟨97⟩ [])).self.type) := by
  obtain ⟨a, hanalyze, -, hnode, hobject⟩ := exists_analyze_mixed
  have hsize : 97 < mixedSetting.assembly.defs.size := by decide +kernel
  exact ⟨loads_mixedDocument.1, hsize, a, hanalyze, hnode, hobject,
    allPlanned_iff_markedBasesHaveKeys loads_mixedDocument.1 hsize hanalyze hnode hobject⟩

/-- The public member of the base of `mixedDocument` is lost: there is one plan for two members to
be written, and no finding. -/
theorem mixed_loses_member : Assembly.load [mixedDocument] = .ok mixedSetting.assembly ∧
    of? mixedSetting.assembly [] {} = some mixedSetting ∧
    ∃ a, mixedSetting.analyze {} ⟨97⟩ = .ok a ∧
      mixedSetting.nodeOf (.named ⟨97⟩ []) ∈ a.graph.nodes ∧
      a.strategyOf? (mixedSetting.nodeOf (.named ⟨97⟩ [])).name = some (.object .keys mixedPlan) ∧
      ¬ mixedSetting.AllPlanned (mixedSetting.nodeOf (.named ⟨97⟩ [])).self.type mixedPlan ∧
      a.verdict.findings = [] := by
  obtain ⟨a, hanalyze, ha, hnode, hobject⟩ := exists_analyze_mixed
  have h := analyzed_of_analyze loads_mixedDocument.1 (by decide +kernel) hanalyze
  refine ⟨loads_mixedDocument.1, loads_mixedDocument.2, a, hanalyze, hnode, hobject, ?_,
    h.findings_eq_nil (ha ▸ findingsOf_mixed)⟩
  rintro ⟨order, hperm, horder⟩
  have htwo : (mixedSetting.membersToWrite
      (mixedSetting.nodeOf (.named ⟨97⟩ [])).self.type).length = 2 := by
    decide +kernel
  have hone : mixedPlan.length = 1 := rfl
  have hlength := horder.length_eq
  rw [htwo, ← hperm.length_eq, hone] at hlength
  omega

end Setting

end FormatterPlan
