import FormatterPlan.Proofs.Grouping
import FormatterPlan.Proofs.Leaves

/-! The arms of a union that is written.  A union attribute with other arguments than a tag and a
type leaves a defect, a tag that is given twice leaves a finding, and the variants of a closed type
are closed.  So a union that is not blocked has one arm for each of its attributes. -/

namespace FormatterPlan

namespace Setting

variable {s : Setting} {t : Ty}

/-- The union attributes on the declaration of a type. -/
def unionAttributes (s : Setting) (t : Ty) : List Attribute :=
  Roles.findAll s.roles.union (s.attributesAt t)

/-- Whether an arm is the one of a union attribute on the declaration of a type: behind the tag that
the attribute gives is its type, with the arguments of the first type put in. -/
def IsArmOf (s : Setting) (t : Ty) (a : Attribute) (arm : UnionArm) : Prop :=
  ∃ tag written, a.args = [.int tag, .type written] ∧
    (written.subst t.args).isClosed = true ∧
      arm = ⟨tag, s.assembly.typeName (written.subst t.args)⟩

/-- What the arms of a type have to be: in the order of their tags, which are all different, and one
for each union attribute. -/
structure DispatchesAll (s : Setting) (t : Ty) (arms : List UnionArm) : Prop where
  ascending : arms.Pairwise (·.tag < ·.tag)
  complete : ∃ order, arms.Perm order ∧ List.Forall₂ (s.IsArmOf t) (s.unionAttributes t) order

/-! ### Variants -/

/-- The variant that a closed type has from an attribute is closed. -/
theorem isClosed_subst_of_mem_attributesAt (hwf : s.assembly.WellFormed)
    (ht : t.Fits s.assembly Ty.AnyParam) (hclosed : t.isClosed = true) {a : Attribute}
    (ha : a ∈ s.attributesAt t) {written : Ty} (hwritten : .type written ∈ a.args) :
    (written.subst t.args).isClosed = true := by
  obtain ⟨symbol, d, hsymbol, hd, hmem⟩ := mem_attributesAt ha
  obtain ⟨hlength, hargs⟩ := (ht.noParam hclosed).args hsymbol hd
  have hfits := ((hwf.defs symbol d hd).attributes a hmem).types written hwritten
  exact (hfits.subst_args hlength hargs).isClosed

theorem defects_of_union (hunion : (s.kindOf t).isUnion = true) (h : (s.nodeOf t).defects = [])
    {a : Attribute} (ha : a ∈ s.unionAttributes t) : (s.variantOf (s.named t) a).2 = [] := by
  cases hkind : s.kindOf t with
  | union isOpen =>
    simp only [nodeOf, hkind, List.append_eq_nil_iff, List.flatMap_map] at h
    exact List.flatMap_eq_nil_iff.mp h.2 a ha
  | _ => simp [hkind, NodeKind.isUnion] at hunion

/-- An attribute without defect that names a closed variant contributes this variant. -/
theorem exists_variantOf {a : Attribute} (hdefects : (s.variantOf (s.named t) a).2 = [])
    (hclosed : ∀ written, .type written ∈ a.args → (written.subst t.args).isClosed = true) :
    ∃ v, (s.variantOf (s.named t) a).1 = [v] ∧ s.IsArmOf t a ⟨v.tag, v.type.name⟩ := by
  unfold variantOf at hdefects ⊢
  split at hdefects
  · rename_i tag written hargs
    have hvariant := hclosed written (by simp [hargs])
    dsimp only
    rw [named_type, if_pos hvariant]
    exact ⟨_, rfl, tag, written, hargs, hvariant, rfl⟩
  · simp at hdefects

theorem forall₂_isArmOf {attributes : List Attribute}
    (h : ∀ a ∈ attributes,
      ∃ v, (s.variantOf (s.named t) a).1 = [v] ∧ s.IsArmOf t a ⟨v.tag, v.type.name⟩) :
    List.Forall₂ (s.IsArmOf t) attributes
      ((attributes.flatMap fun a => (s.variantOf (s.named t) a).1).map
        fun v => ⟨v.tag, v.type.name⟩) := by
  induction attributes with
  | nil => exact .nil
  | cons a rest ih =>
    obtain ⟨v, hv, harm⟩ := h a List.mem_cons_self
    rw [List.flatMap_cons, hv, List.singleton_append, List.map_cons]
    exact .cons harm (ih fun b hb => h b (List.mem_cons_of_mem _ hb))

end Setting

namespace TypeGraph

/-- The variants of a union have different tags if the checks find none repeated. -/
theorem nodup_tags {graph : TypeGraph} {node : Node} (h : graph.variantFindings node = []) :
    (node.variants.map (·.tag)).Nodup := by
  obtain ⟨hrepeated, -⟩ := List.append_eq_nil_iff.mp h
  rw [List.map_eq_nil_iff, repeatedGroups_eq_nil_iff, List.map_map] at hrepeated
  exact hrepeated

end TypeGraph

namespace Setting

variable {s : Setting}

/-- The arms of a closed union whose attributes have no defects and whose tags are different. -/
theorem dispatchesAll (hwf : s.assembly.WellFormed) {t : Ty} (ht : t.Fits s.assembly Ty.AnyParam)
    (hkind : s.kindOf t = .union false) (hdefects : (s.nodeOf t).defects = [])
    (htags : ((s.nodeOf t).variants.map (·.tag)).Nodup) {arms : List UnionArm}
    (harms : StrategySetting.unionStrategy (s.nodeOf t).variants = .union arms) :
    s.DispatchesAll t arms := by
  have hunion : (s.kindOf t).isUnion = true := by rw [hkind]; rfl
  have hclosed : t.isClosed = true := by simpa using (isOpen_eq (.inr hkind)).symm
  have hcontributes : ∀ a ∈ s.unionAttributes t, ∃ v,
      (s.variantOf (s.named t) a).1 = [v] ∧ s.IsArmOf t a ⟨v.tag, v.type.name⟩ := by
    intro a ha
    refine exists_variantOf (defects_of_union hunion hdefects ha) fun written hwritten => ?_
    exact isClosed_subst_of_mem_attributesAt hwf ht hclosed (List.mem_of_mem_filter ha) hwritten
  obtain rfl := Strategy.union.inj harms
  constructor
  case ascending =>
    apply pairwise_lt_mergeSort UnionArm.tag
    rw [List.map_map]
    exact htags
  case complete =>
    refine ⟨_, List.mergeSort_perm _ _, ?_⟩
    rw [nodeOf_variants, if_pos hunion]
    exact forall₂_isArmOf hcontributes

/-- In a loaded assembly a node that is written as a union dispatches all its variants. -/
theorem dispatchesAll_of_strategyOf? {documents : List Document}
    (hload : Assembly.load documents = .ok s.assembly) {control : RunControl} {root : Symbol}
    (hroot : root.index < s.assembly.defs.size) {a : Analysis}
    (hanalyze : s.analyze control root = .ok a) {node : Node} (hnode : node ∈ a.graph.nodes)
    {arms : List UnionArm} (hstrategy : a.strategyOf? node.name = some (.union arms)) :
    s.DispatchesAll node.self.type arms := by
  have h := analyzed_of_analyze hload hroot hanalyze
  obtain ⟨t, ht, hname, hfound, hfull⟩ := h.exists_fullStrategy hstrategy (by simp)
  obtain ⟨hsound, -, hkind, harms⟩ := StrategySetting.fullStrategy_eq_union hfull
  obtain ⟨hvariants, hdefects⟩ := TypeGraph.findingsOf_union_eq_nil
    (TypeGraph.findingsOf_eq_nil hfound (h.isBlocked_eq_false_iff.mp hsound))
    (by rw [hkind]; rfl)
  rw [nodeOf_kind] at hkind
  have hsame := (TypeGraph.node?_eq_some_iff h.complete.distinct).mpr ⟨hnode, rfl⟩
  rw [← hname, hfound, Option.some.injEq] at hsame
  rw [← hsame, nodeOf_self, named_type]
  exact dispatchesAll h.complete.wellFormed ht hkind hdefects (TypeGraph.nodup_tags hvariants) harms

/-! ### A union of generic variants -/

/-- A union with the result of an operation, or a failure.  Its tags are not in order. -/
def resultDocument : Document where
  types := [
    { name := "App.Result", kind := .interface, generics := ["T"],
      attributes := [
        .full "MessagePack.UnionAttribute"
          [.value (.number (.integer 5)), .typeOf "App.Success<T>"],
        .full "MessagePack.UnionAttribute"
          [.value (.number (.integer 2)), .typeOf "App.Failure"]] },
    { name := "App.Success", kind := .concreteClass, generics := ["T"],
      attributes := [.bare "MessagePack.MessagePackObjectAttribute"],
      members := [
        { name := "Value", type := some "T",
          attributes := [.full "MessagePack.KeyAttribute" [.value (.number (.integer 0))]] }] },
    { name := "App.Failure", kind := .concreteClass,
      attributes := [.bare "MessagePack.MessagePackObjectAttribute"] },
    { name := "App.Reply", kind := .concreteClass,
      attributes := [.bare "MessagePack.MessagePackObjectAttribute"],
      members := [
        { name := "Result", type := some "App.Result<System.Int32>",
          attributes := [.full "MessagePack.KeyAttribute" [.value (.number (.integer 0))]] }] }]

def resultDefs : List TypeDef := [
  { name := "App.Result", kind := .interface, generics := ["T"], base := none, underlying := none,
    attributes := [⟨⟨94⟩, [.int 5, .type (.named ⟨97⟩ [.param 0 "T"])]⟩,
      ⟨⟨94⟩, [.int 2, .type (.named ⟨98⟩ [])]⟩],
    members := [] },
  { name := "App.Success", kind := .concreteClass, generics := ["T"], base := none,
    underlying := none, attributes := [⟨⟨90⟩, []⟩],
    members := [
      { name := "Value", kind := .property, type := some (.param 0 "T"), params := [],
        access := .everyone, isStatic := false, attributes := [⟨⟨91⟩, [.int 0]⟩] }] },
  { name := "App.Failure", kind := .concreteClass, generics := [], base := none,
    underlying := none, attributes := [⟨⟨90⟩, []⟩], members := [] },
  { name := "App.Reply", kind := .concreteClass, generics := [], base := none, underlying := none,
    attributes := [⟨⟨90⟩, []⟩],
    members := [
      { name := "Result", kind := .property, type := some (.named ⟨96⟩ [.named ⟨5⟩ []]),
        params := [], access := .everyone, isStatic := false,
        attributes := [⟨⟨91⟩, [.int 0]⟩] }] }]

def resultSetting : Setting := .ofDefs resultDefs {}

/-- The union with numbers for results. -/
def numberResult : Ty := .named ⟨96⟩ [.named ⟨5⟩ []]

/-- The reply of `resultDocument`, its union, the variants and the type of results. -/
def resultGraph : TypeGraph :=
  ⟨#[resultSetting.nodeOf (.named ⟨99⟩ []), resultSetting.nodeOf numberResult,
    resultSetting.nodeOf (.named ⟨97⟩ [.named ⟨5⟩ []]), resultSetting.nodeOf (.named ⟨98⟩ []),
    resultSetting.nodeOf (.named ⟨5⟩ [])]⟩

def resultArms : List UnionArm :=
  [⟨2, .named "App.Failure" []⟩, ⟨5, .named "App.Success" [.named "System.Int32" []]⟩]

theorem loads_resultDocument : Assembly.load [resultDocument] = .ok resultSetting.assembly ∧
    of? resultSetting.assembly [] {} = some resultSetting :=
  loads_ofDefs (by decide +kernel) (toOption_eq_some_iff.mp (by decide +kernel)) {}

theorem exists_analyze_result : ∃ a, resultSetting.analyze {} ⟨99⟩ = .ok a ∧
    a.graph = resultGraph ∧
    a.strategyOf? (resultSetting.nodeOf numberResult).name = some (.union resultArms) := by
  have hgraph : resultSetting.graphOf {} ⟨99⟩ = .ok resultGraph :=
    TypeGraph.graphOf_eq_ok rfl (by decide +kernel)
  obtain ⟨a, hanalyze, ha⟩ := exists_analyze_eq_ok hgraph
  have h := analyzed_of_analyze loads_resultDocument.1 (by decide +kernel) hanalyze
  have hfindings : ∀ node ∈ resultGraph.nodes.toList,
      resultGraph.findingsOf resultSetting.assembly false node = [] := by decide +kernel
  have hkind : resultSetting.kindOf numberResult = .union false := by decide +kernel
  have hreply : a.graph.node? (.named "App.Reply" []) =
      some (resultSetting.nodeOf (.named ⟨99⟩ [])) := by
    rw [ha]
    decide +kernel
  have hmem : resultSetting.named numberResult ∈
      (resultSetting.nodeOf (.named ⟨99⟩ [])).refs := by decide +kernel
  have hnode : Analyzed.HasNode resultSetting a numberResult :=
    (h.hasNode_of_mem_refs hreply hmem (by decide +kernel)).1
  have hvariants : (resultSetting.nodeOf numberResult).variants.map
      (fun v => (⟨v.tag, v.type.name⟩ : UnionArm)) = resultArms.reverse := by decide +kernel
  refine ⟨a, hanalyze, ha, ?_⟩
  rw [nodeOf_name, h.strategyOf?_union hnode (ha ▸ TypeGraph.not_blocked_of_findingsOf hfindings)
    hkind (by decide +kernel), StrategySetting.unionStrategy, hvariants]
  simp [resultArms, List.mergeSort]

theorem numberResult_dispatchesAll : Assembly.load [resultDocument] = .ok resultSetting.assembly ∧
    99 < resultSetting.assembly.defs.size ∧ ∃ a, resultSetting.analyze {} ⟨99⟩ = .ok a ∧
      resultSetting.nodeOf numberResult ∈ a.graph.nodes ∧
      a.strategyOf? (resultSetting.nodeOf numberResult).name = some (.union resultArms) ∧
      resultSetting.DispatchesAll (resultSetting.nodeOf numberResult).self.type resultArms := by
  obtain ⟨a, hanalyze, ha, hstrategy⟩ := exists_analyze_result
  have hsize : 99 < resultSetting.assembly.defs.size := by decide +kernel
  have hnode : resultSetting.nodeOf numberResult ∈ a.graph.nodes := by
    rw [ha, resultGraph]
    exact Array.mem_iff_getElem?.mpr ⟨1, rfl⟩
  exact ⟨loads_resultDocument.1, hsize, a, hanalyze, hnode, hstrategy,
    dispatchesAll_of_strategyOf? loads_resultDocument.1 hsize hanalyze hnode hstrategy⟩

end Setting

end FormatterPlan
