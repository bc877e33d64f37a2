import FormatterPlan.Proofs.LeastBlocked
import FormatterPlan.Proofs.Leaves
import FormatterPlan.Proofs.SoundObjects

/-! The types of planned members.  A planned member that names no formatter is written with the
formatter of its type, and the choice of strategies does not look for one.  The checks do, except
for the members of a base that is marked as an object: these are left to the checks of the base,
which are not made if the base is written in another way, as a union for one.  So the types of
planned members have formatters only if those of such bases do. -/

namespace FormatterPlan

/-- Whether the types of planned members that name no formatter have one. -/
def Analysis.AllFormatted (a : Analysis) (planned : List PlannedMember) : Prop :=
  ∀ p ∈ planned, p.formatter = .ofType → a.Formats p.declared

namespace Setting

variable {s : Setting} {a : Analysis} {t u : Ty}

/-- Whether attributes name a formatter. -/
def namesFormatter (s : Setting) (attributes : List Attribute) : Bool :=
  match Roles.find? s.roles.formatter attributes with
  | none => false
  | some a =>
    match a.args with
    | .type _ :: _ => true
    | _ => false

/-- The members that a marked base has with keys are not of bare types, unless they name their
formatters or the base is an object. -/
def MarkedBasesFormatted (s : Setting) (t : Ty) : Prop :=
  ∀ u, s.Above t.symbol?.toList t u → s.isMarked u = true → (s.kindOf u).isObject = false →
    ∀ m ∈ s.dataAt u, ∀ written, m.type = some written →
      s.hasKey (s.kindOf t).keysAsNames m = true → s.namesFormatter m.attributes = false →
        ¬ s.IsBare (written.subst u.args)

theorem formatterOf_eq_none_iff {attributes : List Attribute} {context : List Ty} {place : String} :
    (s.formatterOf attributes context place).1 = none ↔ s.namesFormatter attributes = false := by
  unfold formatterOf namesFormatter
  cases Roles.find? s.roles.formatter attributes with
  | none => simp
  | some a =>
    dsimp only
    split <;> simp [*]

namespace Analyzed

theorem IsSoundObject.hasNode_declared (h : Analyzed s a) (ht : IsSoundObject s a t)
    {n : NodeMember} (hn : n ∈ (s.nodeOf t).members) :
    HasNode s a n.declared.type ∧ n.declared = s.named n.declared.type := by
  have hclosed := isClosed_of_mem_members h.complete.wellFormed ht.fits ht.isClosed hn
  exact h.hasNode_of_mem_refs ht.node (Node.mem_refs_of_mem_members hn hclosed) hclosed

theorem IsSoundObject.formats_iff (h : Analyzed s a) (ht : IsSoundObject s a t) {n : NodeMember}
    (hn : n ∈ (s.nodeOf t).members) (hformatter : n.formatter = none) :
    a.Formats n.declared.name ↔ ¬ s.IsBare n.declared.type := by
  obtain ⟨hnode, hnamed⟩ := ht.hasNode_declared h hn
  have hname : n.declared.name = s.assembly.typeName n.declared.type :=
    congrArg NamedType.name hnamed
  rw [hname]
  refine h.formats_iff hnode fun other hpasses hblocked => ht.sound ?_
  rw [← hname] at hpasses
  exact .member ht.node (by rw [nodeOf_kind, ht.isObject]) hn hformatter hnode.isClosed hpasses
    hblocked

/-- The members that an object has from itself and from bases that are not marked are not of bare
types. -/
theorem IsSoundObject.not_isBare (h : Analyzed s a) (ht : IsSoundObject s a t) {n : NodeMember}
    (hn : n ∈ (s.nodeOf t).members) (horigin : ∀ base, n.origin ≠ .inherited base true)
    (hformatter : n.formatter = none) : ¬ s.IsBare n.declared.type := by
  obtain ⟨hnode, hnamed⟩ := ht.hasNode_declared h hn
  have hleaves := TypeGraph.unmarkedLeaves_eq_nil ht.findings.1
    (TypeGraph.mem_checkedMembers_iff.mpr ⟨hn, horigin⟩) hformatter hnode.isClosed
  rw [TypeGraph.unmarkedLeaves, eraseDups_eq_nil_iff, hnamed, named_name] at hleaves
  exact (h.bareLeaves_eq_nil_iff hnode).mp hleaves

/-- The members of an object that name no formatter are not of bare types exactly when this is so
for the marked bases that are no objects. -/
theorem IsSoundObject.forall_not_isBare_iff (h : Analyzed s a) (ht : IsSoundObject s a t) :
    (∀ n ∈ (s.nodeOf t).members, n.key.isKeyed = true → n.formatter = none →
      ¬ s.IsBare n.declared.type) ↔ s.MarkedBasesFormatted t := by
  have hwf := h.complete.wellFormed
  constructor
  · intro hall u habove _ _ m hm written htype hkeyed hformatter
    rw [hasKey, Option.any_eq_true] at hkeyed
    obtain ⟨key, hkey, hisKeyed⟩ := hkeyed
    have hlevel : s.baseLevel u ∈ s.levelsOf t :=
      (mem_levelsOf_iff hwf ht.fits).mpr (.inr ⟨u, habove, rfl⟩)
    exact hall _ (mem_nodeOf_members_iff.mpr
      ⟨ht.isObject, _, hlevel, m, hm, written, key, htype, hkey, rfl⟩) hisKeyed
      (formatterOf_eq_none_iff.mpr hformatter)
  · intro hbases n hn hkeyed hformatter
    obtain ⟨-, level, hlevel, m, hm, written, key, htype, hkey, rfl⟩ :=
      mem_nodeOf_members_iff.mp hn
    have hnames := formatterOf_eq_none_iff.mp hformatter
    rcases (mem_levelsOf_iff hwf ht.fits).mp hlevel with rfl | ⟨u, habove, rfl⟩
    · exact ht.not_isBare h hn (by simp [nodeMember]) hformatter
    cases hmarked : s.isMarked u with
    | false => exact ht.not_isBare h hn (by simp [nodeMember, baseLevel, hmarked]) hformatter
    | true =>
      cases hobject : (s.kindOf u).isObject with
      | false =>
        have hhasKey : s.hasKey (s.kindOf t).keysAsNames m = true := by
          rw [hasKey, hkey]
          exact hkeyed
        exact hbases u habove hmarked hobject m hm written htype hhasKey hnames
      | true =>
        -- The same member is checked with the base.
        obtain ⟨key', -, hn'⟩ := exists_own_member hobject hm htype
          (isSome_writtenKey?_iff.mp (by rw [hkey]; rfl))
        have hbase := (ht.base h.complete habove hobject).not_isBare h hn' (by simp [nodeMember])
          (formatterOf_eq_none_iff.mpr hnames)
        exact hbase

/-- A planned member is written as its member says. -/
theorem of_plannedMember? {n : NodeMember} {p : PlannedMember}
    (hp : StrategySetting.plannedMember? n = some p) :
    n.key.isKeyed = true ∧ p.declared = n.declared.name ∧
      (p.formatter = .ofType ↔ n.formatter = none) := by
  have hkeyed : n.key.isKeyed = true := by rw [← StrategySetting.isSome_plannedMember?, hp]; rfl
  refine ⟨hkeyed, ?_⟩
  unfold StrategySetting.plannedMember? at hp
  cases hkey : n.key with
  | int i =>
    rw [hkey] at hp
    obtain rfl := Option.some.inj hp
    refine ⟨rfl, ?_⟩
    cases n.formatter <;> simp
  | string text =>
    rw [hkey] at hp
    obtain rfl := Option.some.inj hp
    refine ⟨rfl, ?_⟩
    cases n.formatter <;> simp
  | null => simp [hkey] at hp
  | unattributed => simp [hkey] at hp

/-- The types of planned members have formatters exactly when they are not bare. -/
theorem WrittenAsObject.allFormatted_iff (h : Analyzed s a) {keysAsNames : Bool}
    {planned : List PlannedMember} (ht : WrittenAsObject s a t keysAsNames planned) :
    a.AllFormatted planned ↔ ∀ n ∈ (s.nodeOf t).members, n.key.isKeyed = true →
      n.formatter = none → ¬ s.IsBare n.declared.type := by
  have hmem : ∀ p, p ∈ planned ↔ ∃ n ∈ (s.nodeOf t).members,
      StrategySetting.plannedMember? n = some p := by
    intro p
    rw [ht.planned.mem_iff, List.mem_filterMap]
  constructor
  · intro hall n hn hkeyed hformatter
    obtain ⟨p, hp⟩ :=
      Option.isSome_iff_exists.mp (StrategySetting.isSome_plannedMember?.trans hkeyed)
    obtain ⟨-, hdeclared, hnone⟩ := of_plannedMember? hp
    have hformats := hall p ((hmem p).mpr ⟨n, hn, hp⟩) (hnone.mpr hformatter)
    rw [hdeclared] at hformats
    exact (ht.isSoundObject.formats_iff h hn hformatter).mp hformats
  · intro hall p hplanned hofType
    obtain ⟨n, hn, hp⟩ := (hmem p).mp hplanned
    obtain ⟨hkeyed, hdeclared, hnone⟩ := of_plannedMember? hp
    rw [hdeclared]
    exact (ht.isSoundObject.formats_iff h hn (hnone.mp hofType)).mpr
      (hall n hn hkeyed (hnone.mp hofType))

end Analyzed

/-- In an analysis of a loaded assembly, the types of the planned members of an object have nodes,
and they have formatters, as far as the members name none, exactly when this is so for the members
of the marked bases that are no objects. -/
theorem allFormatted_iff_markedBasesFormatted {documents : List Document}
    (hload : Assembly.load documents = .ok s.assembly) {control : RunControl} {root : Symbol}
    (hroot : root.index < s.assembly.defs.size) (hanalyze : s.analyze control root = .ok a)
    {node : Node} (hnode : node ∈ a.graph.nodes) {layout : ObjectLayout}
    {planned : List PlannedMember}
    (hobject : a.strategyOf? node.name = some (.object layout planned)) :
    (∀ p ∈ planned, p.declared ∈ a.graph.names) ∧
      (a.AllFormatted planned ↔ s.MarkedBasesFormatted node.self.type) := by
  have h := analyzed_of_analyze hload hroot hanalyze
  obtain ⟨t, keysAsNames, hname, hwritten, -⟩ := h.writtenAsObject hobject
  have hself : node = s.nodeOf t :=
    hwritten.eq_node ((TypeGraph.node?_eq_some_iff h.complete.distinct).mpr ⟨hnode, hname.symm⟩)
  constructor
  · intro p hp
    rw [hwritten.planned.mem_iff, List.mem_filterMap] at hp
    obtain ⟨n, hn, hp⟩ := hp
    obtain ⟨hdeclared, hnamed⟩ := hwritten.isSoundObject.hasNode_declared h hn
    rw [(Analyzed.of_plannedMember? hp).2.1, hnamed, named_name]
    exact TypeGraph.mem_names_of_node? hdeclared.node
  · rw [hself, nodeOf_self, named_type, hwritten.allFormatted_iff h,
      hwritten.isSoundObject.forall_not_isBare_iff h]

/-- A class without attributes, and a union that has a member of it.  The only variant of the union
is a derived class. -/
def partDocument : Document where
  types := [
    { name := "App.Base", kind := .abstractClass,
      attributes := [.bare "MessagePack.MessagePackObjectAttribute",
        .full "MessagePack.UnionAttribute"
          [.value (.number (.integer 0)), .typeOf "App.Derived"]],
      members := [
        { name := "Part", type := some "App.Plain",
          attributes := [.full "MessagePack.KeyAttribute" [.value (.string "part")]] }] },
    { name := "App.Plain", kind := .concreteClass },
    { name := "App.Derived", kind := .concreteClass, base := some "App.Base",
      attributes := [.bare "MessagePack.MessagePackObjectAttribute"] }]

def partDefs : List TypeDef := [
  { name := "App.Base", kind := .abstractClass, generics := [], base := none, underlying := none,
    attributes := [⟨⟨90⟩, []⟩, ⟨⟨94⟩, [.int 0, .type (.named ⟨98⟩ [])]⟩],
    members := [
      { name := "Part", kind := .property, type := some (.named ⟨97⟩ []), params := [],
        access := .everyone, isStatic := false, attributes := [⟨⟨91⟩, [.string "part"]⟩] }] },
  { name := "App.Plain", kind := .concreteClass, generics := [], base := none, underlying := none,
    attributes := [], members := [] },
  { name := "App.Derived", kind := .concreteClass, generics := [], base := some (.named ⟨96⟩ []),
    underlying := none, attributes := [⟨⟨90⟩, []⟩], members := [] }]

def partSetting : Setting := .ofDefs partDefs {}

/-- The derived class of `partDocument`, its base and the class without attributes. -/
def partGraph : TypeGraph :=
  ⟨#[partSetting.nodeOf (.named ⟨98⟩ []), partSetting.nodeOf (.named ⟨96⟩ []),
    partSetting.nodeOf (.named ⟨97⟩ [])]⟩

/-- The plan of the derived class. -/
def partPlan : List PlannedMember :=
  [⟨"Part", .string "part", .named "App.Plain" [], .ofType⟩]

theorem loads_partDocument : Assembly.load [partDocument] = .ok partSetting.assembly ∧
    of? partSetting.assembly [] {} = some partSetting :=
  loads_ofDefs (by decide +kernel) (toOption_eq_some_iff.mp (by decide +kernel)) {}

theorem findingsOf_part : ∀ node ∈ partGraph.nodes.toList,
    partGraph.findingsOf partSetting.assembly partSetting.options.mapMode node = [] := by
  decide +kernel

/-- The derived class is written as an object. -/
theorem exists_analyze_part : ∃ a, partSetting.analyze {} ⟨98⟩ = .ok a ∧ a.graph = partGraph ∧
    partSetting.nodeOf (.named ⟨98⟩ []) ∈ a.graph.nodes ∧
    a.strategyOf? (partSetting.nodeOf (.named ⟨98⟩ [])).name = some (.object .keys partPlan) := by
  have hgraph : partSetting.graphOf {} ⟨98⟩ = .ok partGraph :=
    TypeGraph.graphOf_eq_ok rfl (by decide +kernel)
  have hplan : StrategySetting.objectStrategy partSetting.options.mapMode
      (partSetting.nodeOf (.named ⟨98⟩ [])) = .object .keys partPlan := by
    decide +kernel
  have hkind : partSetting.kindOf (.named ⟨98⟩ []) = .object false false := by decide +kernel
  rw [← hplan]
  exact exists_analyze_object loads_partDocument.1 (by decide +kernel) hgraph findingsOf_part
    (by decide +kernel) hkind (by decide +kernel)

theorem allFormatted_part_iff : Assembly.load [partDocument] = .ok partSetting.assembly ∧
    98 < partSetting.assembly.defs.size ∧ ∃ a, partSetting.analyze {} ⟨98⟩ = .ok a ∧
      partSetting.nodeOf (.named ⟨98⟩ []) ∈ a.graph.nodes ∧
      a.strategyOf? (partSetting.nodeOf (.named ⟨98⟩ [])).name = some (.object .keys partPlan) ∧
      (∀ p ∈ partPlan, p.declared ∈ a.graph.names) ∧
      (a.AllFormatted partPlan ↔
        partSetting.MarkedBasesFormatted (partSetting.nodeOf (.named ⟨98⟩ [])).self.type) := by
  obtain ⟨a, hanalyze, -, hnode, hobject⟩ := exists_analyze_part
  have hsize : 98 < partSetting.assembly.defs.size := by decide +kernel
  exact ⟨loads_partDocument.1, hsize, a, hanalyze, hnode, hobject,
    allFormatted_iff_markedBasesFormatted loads_partDocument.1 hsize hanalyze hnode hobject⟩

/-- The derived class of `partDocument` is planned with a member whose type has no formatter, and
there is no finding. -/
theorem part_has_no_formatter : Assembly.load [partDocument] = .ok partSetting.assembly ∧
    of? partSetting.assembly [] {} = some partSetting ∧ ∃ a, partSetting.analyze {} ⟨98⟩ = .ok a ∧
      partSetting.nodeOf (.named ⟨98⟩ []) ∈ a.graph.nodes ∧
      a.strategyOf? (partSetting.nodeOf (.named ⟨98⟩ [])).name = some (.object .keys partPlan) ∧
      ¬ a.AllFormatted partPlan ∧ a.verdict.findings = [] := by
  obtain ⟨a, hanalyze, ha, hnode, hobject⟩ := exists_analyze_part
  have h := analyzed_of_analyze loads_partDocument.1 (by decide +kernel) hanalyze
  refine ⟨loads_partDocument.1, loads_partDocument.2, a, hanalyze, hnode, hobject, fun hall => ?_,
    h.findings_eq_nil (ha ▸ findingsOf_part)⟩
  have hfits : (Ty.named ⟨97⟩ []).Fits partSetting.assembly Ty.AnyParam := by
    rw [Ty.fits_named]
    exact ⟨⟨_, rfl, rfl⟩, by simp⟩
  have hplain : Analyzed.HasNode partSetting a (.named ⟨97⟩ []) :=
    ⟨hfits, rfl, by rw [ha]; decide +kernel⟩
  have hformats : a.Formats (partSetting.assembly.typeName (.named ⟨97⟩ [])) :=
    hall _ List.mem_cons_self rfl
  refine (h.formats_iff hplain fun other _ => ?_).mp hformats (.leaf ?_ ?_)
  · rw [ha]
    exact TypeGraph.not_blocked_of_findingsOf findingsOf_part other
  · decide +kernel
  · decide +kernel

end Setting

end FormatterPlan
