import FormatterPlan.Proofs.RootAgreement

/-! Collections and unions that get no formatter because of their parts.  Such a type gets none
exactly when a part is known to have none at the time of the choice.  A part whose strategy is
chosen later leads back to the type: that is how the search came to the part.  Elements are smaller
than their collection and variants are no collections, so nothing leads back to a collection, and
only for unions it makes a difference that parts are chosen later. -/

namespace FormatterPlan

/-- Whether the strategy of a part is chosen before that of another type. -/
def Analysis.ChoosesBefore (s : Setting) (a : Analysis) (part name : TypeName) : Prop :=
  ((StrategySetting.chosenBefore (a.choices s).finalState.chosen name).lookup part).isSome = true

/-- What decides whether a collection or union gets a formatter. -/
structure Analysis.DerivesFromParts (s : Setting) (a : Analysis) (node : Node) : Prop where
  unresolved_iff : a.strategyOf? node.name = some .unresolved ↔
    ∃ part ∈ TypeGraph.passedOn node,
      a.strategyOf? part = some .unresolved ∧ a.ChoosesBefore s part node.name
  later : a.strategyOf? node.name ≠ some .unresolved → ∀ part ∈ TypeGraph.passedOn node,
    ¬ a.ChoosesBefore s part node.name →
      node.kind = .union false ∧ (a.choices s).LeadsTo part node.name

theorem Analysis.DerivesFromParts.unresolved_iff_exists {s : Setting} {a : Analysis} {node : Node}
    (h : a.DerivesFromParts s node) (hback : node.kind = .union false →
      ∀ part ∈ TypeGraph.passedOn node, a.strategyOf? part = some .unresolved →
        ¬ (a.choices s).LeadsTo part node.name) :
    a.strategyOf? node.name = some .unresolved ↔
      ∃ part ∈ TypeGraph.passedOn node, a.strategyOf? part = some .unresolved := by
  constructor
  · intro hnone
    obtain ⟨part, hpart, hunresolved, -⟩ := h.unresolved_iff.mp hnone
    exact ⟨part, hpart, hunresolved⟩
  · rintro ⟨part, hpart, hunresolved⟩
    by_contra hsome
    have hbefore : a.ChoosesBefore s part node.name := by
      by_contra hlater
      obtain ⟨hkind, hleads⟩ := h.later hsome part hpart hlater
      exact hback hkind part hpart hunresolved hleads
    exact hsome (h.unresolved_iff.mpr ⟨part, hpart, hunresolved, hbefore⟩)

namespace StrategySetting

variable {s : StrategySetting} {node : Node}

/-- A collection or union that is not blocked and names no formatter has a full strategy. -/
theorem fullStrategy_ne_unresolved
    (hkind : (∃ shape, node.kind = .collection shape) ∨ node.kind = .union false)
    (hsound : s.verdict.isBlocked node.name = false) (hformatter : node.formatter = none) :
    s.fullStrategy node ≠ .unresolved := by
  unfold fullStrategy
  rw [hsound, if_neg Bool.false_ne_true, hformatter]
  rcases hkind with ⟨shape, hkind⟩ | hkind
  · rw [hkind]
    rcases collectionStrategy_cases s.graph shape (node.elements.map (·.name)) with
      ⟨formatter, heq⟩ | heq <;> simp [heq]
  · rw [hkind]
    simp [unionStrategy]

theorem parts_eq_passedOn (hsound : s.verdict.isBlocked node.name = false)
    (hformatter : node.formatter = none) : s.parts node = TypeGraph.passedOn node := by
  rw [parts, hsound, hformatter]
  rfl

theorem mem_parts {part : TypeName} (h : part ∈ s.parts node) :
    s.verdict.isBlocked node.name = false ∧ node.formatter = none ∧
      part ∈ TypeGraph.passedOn node := by
  unfold parts at h
  split at h
  · simp at h
  · rename_i hnot
    simpa [h] using hnot

end StrategySetting

namespace Setting

variable {s : Setting} {a : Analysis} {name part : TypeName} {node : Node}

namespace Analyzed

/-- A part is an element of a collection, with a smaller name, or a type that may be a variant. -/
theorem smaller_or_variant_of_hasPart (h : Analyzed s a) (hpart : (a.choices s).HasPart name part) :
    (∃ node, a.graph.node? name = some node ∧ node.formatter = none ∧
        (∃ shape, node.kind = .collection shape) ∧ sizeOf part < sizeOf name) ∨
      (a.graph.node? part).any TypeGraph.isVariantType = true := by
  obtain ⟨node, hnode, hpart⟩ := hpart
  obtain ⟨hsound, hformatter, hpassed⟩ := StrategySetting.mem_parts hpart
  obtain ⟨t, -, rfl, rfl⟩ := h.complete.node?_made hnode
  unfold TypeGraph.passedOn at hpassed
  split at hpassed
  · rename_i shape hkind
    obtain ⟨r, hr, rfl⟩ := List.mem_map.mp hpassed
    exact .inl ⟨_, hnode, hformatter, ⟨shape, hkind⟩,
      sizeOf_lt_of_mem_elements (nodeOf_kind.symm.trans hkind) hr⟩
  · rename_i hkind
    obtain ⟨v, hv, rfl⟩ := List.mem_map.mp hpassed
    have hfindings := TypeGraph.findingsOf_eq_nil hnode (h.isBlocked_eq_false_iff.mp hsound)
    exact .inr (TypeGraph.isVariantType_of_findingsOf hfindings (by rw [hkind]; rfl) hv)
  · simp at hpassed

/-- No part of a collection leads back to it. -/
theorem not_leadsTo_of_hasPart (h : Analyzed s a) (hnode : a.graph.node? name = some node)
    {shape : CollectionShape} (hkind : node.kind = .collection shape)
    (hpart : part ∈ (a.choices s).parts node) : ¬ (a.choices s).LeadsTo part name := by
  obtain ⟨-, hformatter, -⟩ := StrategySetting.mem_parts hpart
  have hcollection : ∀ {other : TypeName} {node : Node}, a.graph.node? other = some node →
      node.formatter = none → (∃ shape, node.kind = .collection shape) →
      (a.graph.node? other).any TypeGraph.isVariantType ≠ true := by
    rintro other node hother hnone ⟨shape, hkind⟩
    simp [hother, TypeGraph.isVariantType, hnone, hkind]
  -- On the way names get smaller until it comes to a variant, and from there on all are.
  have hinvariant : ∀ other, (a.choices s).LeadsTo part other → sizeOf other < sizeOf name ∨
      (a.graph.node? other).any TypeGraph.isVariantType = true := by
    intro other hleads
    induction hleads with
    | refl =>
      rcases h.smaller_or_variant_of_hasPart ⟨node, hnode, hpart⟩ with ⟨-, -, -, -, hlt⟩ | hvariant
      · exact .inl hlt
      · exact .inr hvariant
    | tail _ hlast ih =>
      rcases h.smaller_or_variant_of_hasPart hlast with
        ⟨owner, howner, hnone, hcoll, hlt⟩ | hvariant
      · rcases ih with hsmaller | hvariant
        · exact .inl (hlt.trans hsmaller)
        · exact (hcollection howner hnone hcoll hvariant).elim
      · exact .inr hvariant
  intro hleads
  rcases hinvariant name hleads with hlt | hvariant
  · omega
  · exact hcollection hnode hformatter ⟨shape, hkind⟩ hvariant

/-- The choice for a collection or union looks for a part without formatter among those that are
chosen before, and the other parts lead back. -/
theorem derivesFromParts (h : Analyzed s a) (hnode : node ∈ a.graph.nodes)
    (hkind : (∃ shape, node.kind = .collection shape) ∨ node.kind = .union false)
    (hsound : a.verdict.isBlocked node.name = false) (hformatter : node.formatter = none) :
    a.DerivesFromParts s node := by
  obtain ⟨htrace, hchosen⟩ := (a.choices s).finalState_complete
  have hfound : a.graph.node? node.name = some node :=
    (TypeGraph.node?_eq_some_iff h.complete.distinct).mpr ⟨hnode, rfl⟩
  have hname := TypeGraph.mem_names_of_node? hfound
  have hparts : (a.choices s).parts node = TypeGraph.passedOn node :=
    StrategySetting.parts_eq_passedOn hsound hformatter
  have hpartName : ∀ part ∈ TypeGraph.passedOn node, part ∈ a.graph.names :=
    fun _ hpart => h.complete.mem_names_of_mem_passedOn hnode hpart
  have hfull :=
    StrategySetting.fullStrategy_ne_unresolved (s := a.choices s) hkind hsound hformatter
  have hreason := htrace.justified (hchosen node.name hname)
  constructor
  case unresolved_iff =>
    rw [h.strategyOf?_eq hname, Option.some.injEq]
    constructor
    · intro hnone
      rw [hnone] at hreason
      generalize hunresolved : Strategy.unresolved = strategy at hreason
      cases hreason with
      | @unresolved node' part hnode' hpart hbefore =>
        obtain rfl : node = node' := Option.some.inj (hfound.symm.trans hnode')
        rw [hparts] at hpart
        refine ⟨part, hpart, ?_, Option.isSome_of_eq_some hbefore⟩
        have hlookup := (htrace.lookup_of_chosenBefore hbefore).1
        rw [h.strategyOf?_eq (hpartName part hpart), ← hlookup]
        exact (hchosen part (hpartName part hpart)).symm
      | @full node' hnode' _ _ =>
        obtain rfl : node = node' := Option.some.inj (hfound.symm.trans hnode')
        exact (hfull hunresolved.symm).elim
    · rintro ⟨part, hpart, hnone, hbefore⟩
      rw [h.strategyOf?_eq (hpartName part hpart), Option.some.injEq] at hnone
      obtain ⟨strategy, hstrategy⟩ := Option.isSome_iff_exists.mp hbefore
      have hlookup := (htrace.lookup_of_chosenBefore hstrategy).1
      have hsame : some strategy = some ((a.choices s).strategyAt part) :=
        hlookup.symm.trans (hchosen part (hpartName part hpart))
      generalize (a.choices s).strategyAt node.name = chosen at hreason ⊢
      cases hreason with
      | unresolved _ _ _ => rfl
      | @full node' hnode' hknown _ =>
        obtain rfl : node = node' := Option.some.inj (hfound.symm.trans hnode')
        refine (hknown part (hparts ▸ hpart) ?_).elim
        rw [hstrategy, hsame, hnone]
  case later =>
    intro hsome part hpart hlater
    have hbefore := Option.not_isSome_iff_eq_none.mp hlater
    have hleads : (a.choices s).LeadsTo part node.name := by
      rw [h.strategyOf?_eq hname, ne_eq, Option.some.injEq] at hsome
      generalize (a.choices s).strategyAt node.name = chosen at hsome hreason
      cases hreason with
      | unresolved _ _ _ => exact (hsome rfl).elim
      | @full node' hnode' _ hopen =>
        obtain rfl : node = node' := Option.some.inj (hfound.symm.trans hnode')
        exact hopen part (hparts ▸ hpart) (hpartName part hpart) hbefore
    refine ⟨?_, hleads⟩
    rcases hkind with ⟨shape, hkind⟩ | hkind
    · exact (h.not_leadsTo_of_hasPart hfound hkind (hparts ▸ hpart) hleads).elim
    · exact hkind

end Analyzed

/-- In a loaded assembly a collection or union that is not blocked and names no formatter gets none
exactly when a part is known to have none at the time of the choice.  That is whenever a part has
none in the end, unless the type is a union and the part leads back to it. -/
theorem derivesFromParts_of_analyze {documents : List Document}
    (hload : Assembly.load documents = .ok s.assembly) {control : RunControl} {root : Symbol}
    (hroot : root.index < s.assembly.defs.size) (hanalyze : s.analyze control root = .ok a)
    (hnode : node ∈ a.graph.nodes)
    (hkind : (∃ shape, node.kind = .collection shape) ∨ node.kind = .union false)
    (hsound : a.verdict.isBlocked node.name = false) (hformatter : node.formatter = none) :
    a.DerivesFromParts s node ∧
      ((node.kind = .union false → ∀ part ∈ TypeGraph.passedOn node,
          a.strategyOf? part = some .unresolved → ¬ (a.choices s).LeadsTo part node.name) →
        (a.strategyOf? node.name = some .unresolved ↔
          ∃ part ∈ TypeGraph.passedOn node, a.strategyOf? part = some .unresolved)) := by
  have hderives :=
    (analyzed_of_analyze hload hroot hanalyze).derivesFromParts hnode hkind hsound hformatter
  exact ⟨hderives, hderives.unresolved_iff_exists⟩

/-! ### Two unions that are variants of each other -/

/-- From the first union of `mutualDocument` on, the second one is sound, its variant gets no
formatter, and it gets one itself. -/
theorem exists_analyze_variant : ∃ a, mutualSetting.analyze {} ⟨96⟩ = .ok a ∧
    mutualSetting.nodeOf (.named ⟨97⟩ []) ∈ a.graph.nodes ∧
    a.verdict.isBlocked (mutualSetting.nodeOf (.named ⟨97⟩ [])).name = false ∧
    a.strategyOf? (.named "App.First" []) = some .unresolved ∧
    a.strategyOf? (mutualSetting.nodeOf (.named ⟨97⟩ [])).name ≠ some .unresolved := by
  have hblocked : (mutualSetting.verdictOn (mutualGraph ⟨96⟩ ⟨97⟩)).blocked =
      [.named "App.Faulty" []] := by
    rw [verdictOn, TypeGraph.blocked_ofGraph_of_keep (by decide +kernel)]
    decide +kernel
  obtain ⟨a, hanalyze, ha, hall⟩ := exists_analyze_mutual (by decide +kernel)
    (TypeGraph.graphOf_eq_ok rfl (by decide +kernel)) hblocked
  refine ⟨a, hanalyze, ?_, ?_, ?_, ?_⟩
  · rw [ha, mutualGraph]
    exact Array.mem_iff_getElem?.mpr ⟨1, rfl⟩
  · rw [(analyze_ok hanalyze).2.1, ha, Verdict.isBlocked, hblocked]
    decide +kernel
  · rw [hall _ (by decide +kernel)]
    decide +kernel
  · rw [hall _ (by decide +kernel)]
    decide +kernel

theorem derivesFromParts_second : Assembly.load [mutualDocument] = .ok mutualSetting.assembly ∧
    96 < mutualSetting.assembly.defs.size ∧ ∃ a, mutualSetting.analyze {} ⟨96⟩ = .ok a ∧
      mutualSetting.nodeOf (.named ⟨97⟩ []) ∈ a.graph.nodes ∧
      a.verdict.isBlocked (mutualSetting.nodeOf (.named ⟨97⟩ [])).name = false ∧
      a.DerivesFromParts mutualSetting (mutualSetting.nodeOf (.named ⟨97⟩ [])) := by
  obtain ⟨a, hanalyze, hnode, hsound, -⟩ := exists_analyze_variant
  have hsize : 96 < mutualSetting.assembly.defs.size := by decide +kernel
  refine ⟨loads_mutualDocument.1, hsize, a, hanalyze, hnode, hsound, ?_⟩
  exact (derivesFromParts_of_analyze loads_mutualDocument.1 hsize hanalyze hnode
    (.inr (by decide +kernel)) hsound (by decide +kernel)).1

/-- The second union of `mutualDocument` gets a formatter though its only variant gets none. -/
theorem second_hides_variant : Assembly.load [mutualDocument] = .ok mutualSetting.assembly ∧
    of? mutualSetting.assembly [] {} = some mutualSetting ∧
    ∃ a, mutualSetting.analyze {} ⟨96⟩ = .ok a ∧
      mutualSetting.nodeOf (.named ⟨97⟩ []) ∈ a.graph.nodes ∧
      (mutualSetting.nodeOf (.named ⟨97⟩ [])).kind = .union false ∧
      (mutualSetting.nodeOf (.named ⟨97⟩ [])).formatter = none ∧
      a.verdict.isBlocked (mutualSetting.nodeOf (.named ⟨97⟩ [])).name = false ∧
      ¬ (a.strategyOf? (mutualSetting.nodeOf (.named ⟨97⟩ [])).name = some .unresolved ↔
        ∃ part ∈ TypeGraph.passedOn (mutualSetting.nodeOf (.named ⟨97⟩ [])),
          a.strategyOf? part = some .unresolved) := by
  obtain ⟨a, hanalyze, hnode, hsound, hvariant, hsome⟩ := exists_analyze_variant
  have hpart : .named "App.First" [] ∈
      TypeGraph.passedOn (mutualSetting.nodeOf (.named ⟨97⟩ [])) := by decide +kernel
  exact ⟨loads_mutualDocument.1, loads_mutualDocument.2, a, hanalyze, hnode, by decide +kernel,
    by decide +kernel, hsound, fun hiff => hsome (hiff.mpr ⟨_, hpart, hvariant⟩)⟩

end Setting

end FormatterPlan
