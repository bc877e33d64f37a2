import FormatterPlan.Proofs.Layouts
import FormatterPlan.Proofs.UnionArms
import FormatterPlan.Proofs.UnplacedNodes

/-! The numbers that a plan writes: the positions of members and the tags of variants.  Attributes
give integers of 64 bits, and the format takes 32.  A key outside of this range leaves a defect on
the type of its member and on every type that inherits the member.  The tag of a variant is taken as
it is given. -/

namespace FormatterPlan

namespace Setting

variable {s : Setting} {t : Ty}

/-- Whether a data member of a type or of one of its bases, which is not ignored, has a key
attribute with a number.  The place is the name of the member behind that of its type. -/
def GivesKey (s : Setting) (t : Ty) (place : String) (n : Int) : Prop :=
  ∃ u, s.OnChain t u ∧ ∃ m ∈ s.dataAt u, place = (s.assembly.typeName u).text ++ "." ++ m.name ∧
    s.roles.isIgnored m.attributes = false ∧
      ∃ a, Roles.find? s.roles.key m.attributes = some a ∧ a.args.head? = some (.int n)

/-- Whether a union attribute on the declaration of a type has this tag and a type. -/
def GivesTag (s : Setting) (t : Ty) (tag : Int) : Prop :=
  ∃ a ∈ s.unionAttributes t, ∃ written, a.args = [.int tag, .type written]

/-! ### Defects of keys -/

theorem keyOf_eq_keyRange_iff {m : Member} {keysAsNames : Bool} {place place' : String} {n : Int} :
    s.keyOf m keysAsNames place' = .defect (.keyRange place n) ↔
      place = place' ∧ s.roles.isIgnored m.attributes = false ∧
        (∃ a, Roles.find? s.roles.key m.attributes = some a ∧ a.args.head? = some (.int n)) ∧
          ¬ IsInt32 n := by
  unfold keyOf
  cases hignored : s.roles.isIgnored m.attributes with
  | true => simp
  | false =>
    cases hkey : Roles.find? s.roles.key m.attributes with
    | none => by_cases hpublic : m.access = .everyone <;> cases keysAsNames <;> simp [hpublic]
    | some a =>
      obtain ⟨symbol, args⟩ := a
      match args with
      | [] | .null :: _ | .string _ :: _ | .bool _ :: _ | .type _ :: _ => simp
      | .int k :: rest =>
        have hhead : (∃ a, some (⟨symbol, .int k :: rest⟩ : Attribute) = some a ∧
            a.args.head? = some (.int n)) ↔ k = n := by simp
        have hrange : (-(Int.pow 2 31) ≤ k ∧ k < Int.pow 2 31) ↔ IsInt32 k := Iff.rfl
        simp only [Bool.false_eq_true, if_false, hhead, hrange, true_and]
        by_cases hk : IsInt32 k
        · rw [if_pos hk]
          refine iff_of_false (by simp) ?_
          rintro ⟨-, rfl, hn⟩
          exact hn hk
        · rw [if_neg hk, KeyChoice.defect.injEq, Defect.keyRange.injEq]
          constructor
          · rintro ⟨rfl, rfl⟩
            exact ⟨rfl, rfl, hk⟩
          · rintro ⟨rfl, rfl, -⟩
            exact ⟨rfl, rfl⟩

theorem eq_noFormatterType_of_mem_formatterOf {attributes : List Attribute} {context : List Ty}
    {place : String} {d : Defect} (h : d ∈ (s.formatterOf attributes context place).2) :
    d = .noFormatterType place := by
  unfold formatterOf at h
  split at h
  · simp at h
  · split at h
    · simp at h
    · simpa using h

theorem keyRange_mem_memberOf_iff {level : Level} {m : Member} (htype : m.type.isSome = true)
    {keysAsNames : Bool} {place : String} {n : Int} :
    .keyRange place n ∈ (s.memberOf keysAsNames level m).2 ↔
      s.keyOf m keysAsNames (level.type.name.text ++ "." ++ m.name) =
        .defect (.keyRange place n) := by
  obtain ⟨type, htype⟩ := Option.isSome_iff_exists.mp htype
  unfold memberOf
  rw [htype]
  dsimp only
  cases s.keyOf m keysAsNames (level.type.name.text ++ "." ++ m.name) with
  | ignored => simp
  | defect d => simp [eq_comm]
  | key key =>
    refine iff_of_false ?_ (by simp)
    dsimp only
    split
    · simp
    · exact fun hmem => by simpa using eq_noFormatterType_of_mem_formatterOf hmem

theorem isSome_type_of_mem_dataAt (hwf : s.assembly.WellFormed) {m : Member} (hm : m ∈ s.dataAt t) :
    m.type.isSome = true := by
  obtain ⟨symbol, d, -, hd, hmem, hdata⟩ := mem_dataAt hm
  exact ((hwf.defs symbol d hd).members m hmem).isSome_type hdata

/-- The levels of a type are the types on its chain. -/
theorem exists_level_iff (hwf : s.assembly.WellFormed) (ht : t.Fits s.assembly Ty.AnyParam)
    {P : NamedType → Prop} :
    (∃ level ∈ s.levelsOf t, P level.type) ↔ ∃ u, s.OnChain t u ∧ P (s.named u) := by
  constructor
  · rintro ⟨level, hlevel, hP⟩
    rcases (mem_levelsOf_iff hwf ht).mp hlevel with rfl | ⟨u, habove, rfl⟩
    · exact ⟨t, .inl rfl, hP⟩
    · exact ⟨u, .inr habove, hP⟩
  · rintro ⟨u, rfl | habove, hP⟩
    · exact ⟨_, (mem_levelsOf_iff hwf ht).mpr (.inl rfl), hP⟩
    · exact ⟨_, (mem_levelsOf_iff hwf ht).mpr (.inr ⟨u, habove, rfl⟩), hP⟩

/-- The keys out of range that are defects of a node are those that members of its chain give. -/
theorem keyRange_mem_nodeOf_defects_iff (hwf : s.assembly.WellFormed)
    (ht : t.Fits s.assembly Ty.AnyParam) {place : String} {n : Int} :
    .keyRange place n ∈ (s.nodeOf t).defects ↔
      (s.kindOf t).isObject = true ∧ s.GivesKey t place n ∧ ¬ IsInt32 n := by
  have hformatter : .keyRange place n ∉
      (s.formatterOf (s.attributesAt t) t.args (s.assembly.typeName t).text).2 := fun hmem => by
    simpa using eq_noFormatterType_of_mem_formatterOf hmem
  rw [nodeOf_defects, List.mem_append, or_iff_right hformatter]
  by_cases hobject : (s.kindOf t).isObject = true
  case neg =>
    rw [if_neg hobject]
    refine iff_of_false ?_ fun h => hobject h.1
    split
    · simp only [List.mem_flatMap, not_exists, not_and]
      intro a _
      unfold variantOf
      split <;> simp
    · simp
  case pos =>
    have hcyclic : .keyRange place n ∉
        if (s.basesOf t).2 = true then [Defect.cyclicBases (s.assembly.typeName t)] else [] := by
      split <;> simp
    rw [if_pos hobject, List.mem_append, or_iff_right hcyclic]
    simp only [List.mem_flatMap, List.mem_reverse, membersOf_snd, hobject, true_and]
    have hlevels : (∃ level ∈ s.levelsOf t, ∃ m ∈ s.dataAt level.type.type,
        .keyRange place n ∈ (s.memberOf (s.kindOf t).keysAsNames level m).2) ↔
        ∃ level ∈ s.levelsOf t, ∃ m ∈ s.dataAt level.type.type,
          s.keyOf m (s.kindOf t).keysAsNames (level.type.name.text ++ "." ++ m.name) =
            .defect (.keyRange place n) :=
      exists_congr fun level => and_congr_right fun _ => exists_congr fun m =>
        and_congr_right fun hm => keyRange_mem_memberOf_iff (isSome_type_of_mem_dataAt hwf hm)
    rw [hlevels, exists_level_iff hwf ht (P := fun r => ∃ m ∈ s.dataAt r.type,
      s.keyOf m (s.kindOf t).keysAsNames (r.name.text ++ "." ++ m.name) =
        .defect (.keyRange place n))]
    simp only [keyOf_eq_keyRange_iff, GivesKey, named_type, named_name]
    constructor
    · rintro ⟨u, hu, m, hm, hplace, hignored, hkey, hrange⟩
      exact ⟨⟨u, hu, m, hm, hplace, hignored, hkey⟩, hrange⟩
    · rintro ⟨⟨u, hu, m, hm, hplace, hignored, hkey⟩, hrange⟩
      exact ⟨u, hu, m, hm, hplace, hignored, hkey, hrange⟩

/-! ### Tags -/

/-- The defects of a union come from a formatter attribute without a type and from union attributes
that are given anything else than a tag and a type. -/
theorem eq_of_mem_nodeOf_defects (hunion : (s.kindOf t).isUnion = true) {d : Defect}
    (hd : d ∈ (s.nodeOf t).defects) :
    d = .noFormatterType (s.assembly.typeName t).text ∨
      d = .unionArguments (s.assembly.typeName t) ∧
        ∃ a ∈ s.unionAttributes t, ∀ tag written, a.args ≠ [.int tag, .type written] := by
  have hobject : ¬ (s.kindOf t).isObject = true := fun hobject => by
    simp [NodeKind.isUnion_of_isObject hobject] at hunion
  rw [nodeOf_defects, if_neg hobject, if_pos hunion, List.mem_append] at hd
  rcases hd with hformatter | hvariant
  · exact .inl (eq_noFormatterType_of_mem_formatterOf hformatter)
  · obtain ⟨a, ha, hmem⟩ := List.mem_flatMap.mp hvariant
    unfold variantOf at hmem
    split at hmem
    · simp at hmem
    · rename_i hargs
      exact .inr ⟨by simpa [named_name] using hmem, a, ha, hargs⟩

/-- The tags of the variants of a closed type are those that the attributes give. -/
theorem exists_variant_iff (hwf : s.assembly.WellFormed) (ht : t.Fits s.assembly Ty.AnyParam)
    (hkind : s.kindOf t = .union false) {tag : Int} :
    (∃ v ∈ (s.nodeOf t).variants, v.tag = tag) ↔ s.GivesTag t tag := by
  have hclosed : t.isClosed = true := by simpa using (isOpen_eq (.inr hkind)).symm
  constructor
  · rintro ⟨v, hv, rfl⟩
    obtain ⟨-, a, ha, hunion, tag, written, hargs, -, rfl⟩ := mem_nodeOf_variants_iff.mp hv
    exact ⟨a, List.mem_filter.mpr ⟨ha, by simpa using hunion⟩, written, hargs⟩
  · rintro ⟨a, ha, written, hargs⟩
    obtain ⟨hmem, hunion⟩ := List.mem_filter.mp ha
    have hvariant : (written.subst t.args).isClosed = true :=
      isClosed_subst_of_mem_attributesAt hwf ht hclosed hmem (by simp [hargs])
    exact ⟨_, mem_nodeOf_variants_iff.mpr ⟨by rw [hkind]; rfl, a, hmem, by simpa using hunion, tag,
      written, hargs, hvariant, rfl⟩, rfl⟩

/-- The tags of the arms of a union are those that its attributes give. -/
theorem Analyzed.exists_arm_iff {a : Analysis} (h : Analyzed s a)
    (hnode : a.graph.node? (s.assembly.typeName t) = some (s.nodeOf t)) {arms : List UnionArm}
    (hstrategy : a.strategyOf? (s.assembly.typeName t) = some (.union arms)) {tag : Int} :
    (∃ arm ∈ arms, arm.tag = tag) ↔ s.GivesTag t tag := by
  obtain ⟨u, hu, hname, hfound, hfull⟩ := h.exists_fullStrategy hstrategy (by simp)
  obtain rfl : u = t := by
    rw [hname, hnode, Option.some.injEq] at hfound
    simpa using congrArg (·.self.type) hfound.symm
  obtain ⟨-, -, hkind, harms⟩ := StrategySetting.fullStrategy_eq_union hfull
  rw [nodeOf_kind] at hkind
  obtain rfl := Strategy.union.inj harms
  rw [← exists_variant_iff h.complete.wellFormed hu hkind]
  simp only [List.mem_mergeSort, List.mem_map, exists_exists_and_eq_and]

/-! ### The numbers of a node -/

/-- What is checked of the numbers of a node and what is not.  Keys are kept to 32 bits: none that
is planned has more, and one that has leaves a defect on each object with the member on its chain,
so that the object is blocked.  Tags are not: those of a union are the ones that its attributes
give, and no defect of a union is about a tag. -/
structure ChecksNumbers (s : Setting) (a : Analysis) (node : Node) : Prop where
  keys : ∀ layout planned, a.strategyOf? node.name = some (.object layout planned) →
    ∀ p ∈ planned, ∀ n, p.key = .int n → IsInt32 n
  keyRange_iff : ∀ place n, .keyRange place n ∈ node.defects ↔
    node.kind.isObject = true ∧ s.GivesKey node.self.type place n ∧ ¬ IsInt32 n
  blocked : ∀ place n, node.kind.isObject = true → s.GivesKey node.self.type place n →
    ¬ IsInt32 n → a.verdict.isBlocked node.name = true
  tags : ∀ arms, a.strategyOf? node.name = some (.union arms) →
    ∀ tag, (∃ arm ∈ arms, arm.tag = tag) ↔ s.GivesTag node.self.type tag
  unionDefects : node.kind.isUnion = true → ∀ d ∈ node.defects,
    d = .noFormatterType node.name.text ∨ d = .unionArguments node.name ∧
      ∃ a ∈ s.unionAttributes node.self.type, ∀ tag written, a.args ≠ [.int tag, .type written]

namespace ChecksNumbers

variable {a : Analysis} {node : Node}

/-- The tags of a union have 32 bits exactly when its attributes give none that has more. -/
theorem forall_isInt32_iff (h : ChecksNumbers s a node) {arms : List UnionArm}
    (hstrategy : a.strategyOf? node.name = some (.union arms)) :
    (∀ arm ∈ arms, IsInt32 arm.tag) ↔ ∀ tag, s.GivesTag node.self.type tag → IsInt32 tag := by
  constructor
  · intro hall tag hgiven
    obtain ⟨arm, harm, rfl⟩ := (h.tags arms hstrategy tag).mpr hgiven
    exact hall arm harm
  · exact fun hall arm harm => hall _ ((h.tags arms hstrategy _).mp ⟨arm, harm, rfl⟩)

end ChecksNumbers

theorem Analyzed.isInt32_of_planned {a : Analysis} (h : Analyzed s a) {name : TypeName}
    {layout : ObjectLayout} {planned : List PlannedMember}
    (hstrategy : a.strategyOf? name = some (.object layout planned)) {p : PlannedMember}
    (hp : p ∈ planned) {n : Int} (hkey : p.key = .int n) : IsInt32 n := by
  obtain ⟨t, keysAsNames, -, hwritten, -⟩ := h.writtenAsObject hstrategy
  obtain ⟨m, hm, hplan⟩ :=
    StrategySetting.exists_member_of_mem_planned (hwritten.planned.mem_iff.mp hp)
  have hmember : m.key = .int n := by rw [← hplan.key, hkey, PlannedKey.memberKey]
  exact isInt32_of_key hm hmember

theorem Analyzed.checksNumbers {a : Analysis} (h : Analyzed s a) {node : Node}
    (hnode : node ∈ a.graph.nodes) : ChecksNumbers s a node := by
  obtain ⟨t, ht, rfl⟩ := h.complete.made node hnode
  have hdefects (place : String) (n : Int) :
      .keyRange place n ∈ (s.nodeOf t).defects ↔
        (s.kindOf t).isObject = true ∧ s.GivesKey t place n ∧ ¬ IsInt32 n :=
    keyRange_mem_nodeOf_defects_iff h.complete.wellFormed ht
  constructor
  case keys =>
    exact fun layout planned hstrategy p hp n hkey => h.isInt32_of_planned hstrategy hp hkey
  case keyRange_iff => simpa only [nodeOf_kind, nodeOf_self, named_type] using hdefects
  case blocked =>
    intro place n hobject hgiven hrange
    rw [nodeOf_kind] at hobject
    rw [nodeOf_self, named_type] at hgiven
    have hdefect := (hdefects place n).mpr ⟨hobject, hgiven, hrange⟩
    refine h.isBlocked_of_findingsOf hnode fun hnil => ?_
    rw [TypeGraph.findingsOf, List.append_eq_nil_iff, List.map_eq_nil_iff] at hnil
    rw [hnil.2] at hdefect
    cases hdefect
  case tags =>
    intro arms hstrategy tag
    rw [nodeOf_name] at hstrategy
    rw [nodeOf_self, named_type]
    have hfound := (TypeGraph.node?_eq_some_iff h.complete.distinct).mpr ⟨hnode, nodeOf_name⟩
    exact h.exists_arm_iff hfound hstrategy
  case unionDefects =>
    rw [nodeOf_name, nodeOf_kind, nodeOf_self, named_type]
    exact fun hunion d hd => eq_of_mem_nodeOf_defects hunion hd

/-- In a loaded assembly the keys of each node are checked for their range and the tags are not: the
arms of a union have 32 bits exactly when the attributes give no tag that has more. -/
theorem checksNumbers_of_analyze {documents : List Document}
    (hload : Assembly.load documents = .ok s.assembly) {control : RunControl} {root : Symbol}
    (hroot : root.index < s.assembly.defs.size) {a : Analysis}
    (hanalyze : s.analyze control root = .ok a) {node : Node} (hnode : node ∈ a.graph.nodes) :
    ChecksNumbers s a node ∧
      ∀ arms, a.strategyOf? node.name = some (.union arms) →
        ((∀ arm ∈ arms, IsInt32 arm.tag) ↔
          ∀ tag, s.GivesTag node.self.type tag → IsInt32 tag) := by
  have hchecks := (analyzed_of_analyze hload hroot hanalyze).checksNumbers hnode
  exact ⟨hchecks, fun arms hstrategy => hchecks.forall_isInt32_iff hstrategy⟩

/-! ### A number of 33 bits -/

/-- A union with a tag and a class with a key that 32 bits do not hold, and a class that inherits
the key. -/
def wideDocument : Document where
  types := [
    { name := "App.Shape", kind := .interface,
      attributes := [.full "MessagePack.UnionAttribute"
        [.value (.number (.integer 2147483648)), .typeOf "App.Circle"]] },
    { name := "App.Circle", kind := .concreteClass,
      attributes := [.bare "MessagePack.MessagePackObjectAttribute"] },
    { name := "App.Wide", kind := .concreteClass,
      attributes := [.bare "MessagePack.MessagePackObjectAttribute"],
      members := [
        { name := "Value", type := some "System.Int32",
          attributes := [.full "MessagePack.KeyAttribute"
            [.value (.number (.integer 2147483648))]] }] },
    { name := "App.Wider", kind := .concreteClass, base := some "App.Wide",
      attributes := [.bare "MessagePack.MessagePackObjectAttribute"] }]

def wideMember : Member where
  name := "Value"
  kind := .property
  type := some (.named ⟨5⟩ [])
  params := []
  access := .everyone
  isStatic := false
  attributes := [⟨⟨91⟩, [.int 2147483648]⟩]

def wideDefs : List TypeDef := [
  { name := "App.Shape", kind := .interface, generics := [], base := none, underlying := none,
    attributes := [⟨⟨94⟩, [.int 2147483648, .type (.named ⟨97⟩ [])]⟩], members := [] },
  { name := "App.Circle", kind := .concreteClass, generics := [], base := none, underlying := none,
    attributes := [⟨⟨90⟩, []⟩], members := [] },
  { name := "App.Wide", kind := .concreteClass, generics := [], base := none, underlying := none,
    attributes := [⟨⟨90⟩, []⟩], members := [wideMember] },
  { name := "App.Wider", kind := .concreteClass, generics := [], base := some (.named ⟨98⟩ []),
    underlying := none, attributes := [⟨⟨90⟩, []⟩], members := [] }]

def wideSetting : Setting := .ofDefs wideDefs {}

def shapeNode : Node := wideSetting.nodeOf (.named ⟨96⟩ [])

def widerNode : Node := wideSetting.nodeOf (.named ⟨99⟩ [])

theorem loads_wideDocument : Assembly.load [wideDocument] = .ok wideSetting.assembly ∧
    of? wideSetting.assembly [] {} = some wideSetting :=
  loads_ofDefs (by decide +kernel) (toOption_eq_some_iff.mp (by decide +kernel)) {}

/-- The class that inherits the key is blocked for it. -/
theorem widerNode_checksNumbers : Assembly.load [wideDocument] = .ok wideSetting.assembly ∧
    99 < wideSetting.assembly.defs.size ∧ ∃ a, wideSetting.analyze {} ⟨99⟩ = .ok a ∧
      widerNode ∈ a.graph.nodes ∧ ChecksNumbers wideSetting a widerNode ∧
      wideSetting.GivesKey widerNode.self.type "App.Wide.Value" 2147483648 ∧
      a.verdict.isBlocked widerNode.name = true := by
  have hgraph : wideSetting.graphOf {} ⟨99⟩ =
      .ok ⟨#[widerNode, wideSetting.nodeOf (.named ⟨98⟩ [])]⟩ :=
    TypeGraph.graphOf_eq_ok rfl (by decide +kernel)
  have hsize : 99 < wideSetting.assembly.defs.size := by decide +kernel
  obtain ⟨a, hanalyze, ha⟩ := exists_analyze_eq_ok hgraph
  have hnode : widerNode ∈ a.graph.nodes := by
    rw [ha]
    exact Array.mem_iff_getElem?.mpr ⟨0, rfl⟩
  obtain ⟨hchecks, -⟩ := checksNumbers_of_analyze loads_wideDocument.1 hsize hanalyze hnode
  obtain ⟨hobject, hgiven, hrange⟩ := (hchecks.keyRange_iff "App.Wide.Value" 2147483648).mp
    (by decide +kernel)
  exact ⟨loads_wideDocument.1, hsize, a, hanalyze, hnode, hchecks, hgiven,
    hchecks.blocked _ _ hobject hgiven hrange⟩

/-- The tag is written as it is given: the union has no defect, is not blocked and has an arm with
it. -/
theorem shapeNode_takesWideTag : Assembly.load [wideDocument] = .ok wideSetting.assembly ∧
    96 < wideSetting.assembly.defs.size ∧ ∃ a, wideSetting.analyze {} ⟨96⟩ = .ok a ∧
      shapeNode ∈ a.graph.nodes ∧ shapeNode.defects = [] ∧
      a.verdict.isBlocked shapeNode.name = false ∧
      a.strategyOf? shapeNode.name =
        some (.union [⟨2147483648, .named "App.Circle" []⟩]) ∧ ¬ IsInt32 2147483648 := by
  have hgraph : wideSetting.graphOf {} ⟨96⟩ =
      .ok ⟨#[shapeNode, wideSetting.nodeOf (.named ⟨97⟩ [])]⟩ :=
    TypeGraph.graphOf_eq_ok rfl (by decide +kernel)
  have hsize : 96 < wideSetting.assembly.defs.size := by decide +kernel
  obtain ⟨a, hanalyze, ha⟩ := exists_analyze_eq_ok hgraph
  have h := analyzed_of_analyze loads_wideDocument.1 hsize hanalyze
  have hnode : shapeNode ∈ a.graph.nodes := by
    rw [ha]
    exact Array.mem_iff_getElem?.mpr ⟨0, rfl⟩
  have hkind : wideSetting.kindOf (.named ⟨96⟩ []) = .union false := by decide +kernel
  have hshape : Analyzed.HasNode wideSetting a (.named ⟨96⟩ []) := {
    fits := h.complete.fits_of_mem hnode
    isClosed := rfl
    node := (TypeGraph.node?_eq_some_iff h.complete.distinct).mpr ⟨hnode, nodeOf_name⟩ }
  have hsound : ∀ name, ¬ TypeGraph.Blocked wideSetting.assembly false a.graph name := by
    rw [ha]
    exact TypeGraph.not_blocked_of_findingsOf (by decide +kernel)
  have hvariants : shapeNode.variants.map (fun v => (⟨v.tag, v.type.name⟩ : UnionArm)) =
      [⟨2147483648, .named "App.Circle" []⟩] := by decide +kernel
  refine ⟨loads_wideDocument.1, hsize, a, hanalyze, hnode, by decide +kernel,
    h.isBlocked_eq_false_iff.mpr (hsound _), ?_, by decide⟩
  rw [shapeNode, nodeOf_name, h.strategyOf?_union hshape hsound hkind (by decide +kernel),
    StrategySetting.unionStrategy, ← shapeNode, hvariants, List.mergeSort_singleton]

end Setting

end FormatterPlan
