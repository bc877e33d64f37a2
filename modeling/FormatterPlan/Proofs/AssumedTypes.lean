import FormatterPlan.Proofs.LeastBlocked
import FormatterPlan.Proofs.PreludeRoles
import FormatterPlan.Proofs.StoredTypes
import FormatterPlan.Proofs.Tables
import FormatterPlan.Proofs.UnplacedNodes

/-! Types that another resolver formats.  Nothing of such a type is looked at but the formatter that
its declaration names: that is checked and used as if the type were formatted here.  So the types
that the analysis leaves alone are those whose declarations carry no formatter attribute. -/

namespace FormatterPlan

/-- Whether an analysis leaves a node alone: it finds nothing, does not block the type, takes it as
formatted elsewhere and has no entry for it. -/
structure Analysis.LeavesAlone (s : Setting) (a : Analysis) (node : Node) : Prop where
  findings : a.graph.findingsOf s.assembly s.options.mapMode node = []
  sound : a.verdict.isBlocked node.name = false
  strategy : a.strategyOf? node.name = some .assumed
  untabled : a.table.find? node.name = none

namespace Setting

variable {s : Setting} {control : RunControl} {root symbol : Symbol} {a : Analysis} {t : Ty}
  {d : TypeDef}

theorem kindOf_of_isAssumed (hsymbol : t.symbol? = some symbol)
    (hd : s.assembly.def? symbol = some d) (hassumed : s.isAssumed d = true) :
    s.kindOf t = .assumed := by
  cases t with
  | named symbol' args =>
    obtain rfl : symbol' = symbol := Option.some.inj hsymbol
    rw [kindOf, declaredKind, hd]
    exact if_pos hassumed
  | array element rank => cases hsymbol
  | param index name => cases hsymbol

theorem attributesAt_of_symbol? (hsymbol : t.symbol? = some symbol)
    (hd : s.assembly.def? symbol = some d) : s.attributesAt t = d.attributes := by
  rw [attributesAt, hsymbol, Option.elim_some, Assembly.attributesOf, hd, Option.elim_some]

theorem nodeOf_defects_of_assumed (hkind : s.kindOf t = .assumed) : (s.nodeOf t).defects =
    (s.formatterOf (s.attributesAt t) t.args (s.assembly.typeName t).text).2 := by
  simp [nodeOf_defects, hkind, NodeKind.isObject, NodeKind.isUnion]

/-- A formatter attribute gives a formatter or leaves a defect. -/
theorem formatterOf_ne {attributes : List Attribute} {written : Attribute}
    (h : Roles.find? s.roles.formatter attributes = some written) (context : List Ty)
    (place : String) :
    (∃ custom, (s.formatterOf attributes context place).1 = some custom) ∨
      (s.formatterOf attributes context place).2 ≠ [] := by
  rw [formatterOf, h]
  dsimp only
  split
  · exact .inl ⟨_, rfl⟩
  · exact .inr (List.cons_ne_nil _ _)

namespace Analyzed

theorem leavesAlone (h : Analyzed s a) (htable : a.table = .ofGraph a.graph a.strategies)
    {node : Node} (hnode : node ∈ a.graph.nodes) (hkind : node.kind = .assumed)
    (hformatter : node.formatter = none) (hdefects : node.defects = []) :
    a.LeavesAlone s node := by
  have hfindings : a.graph.findingsOf s.assembly s.options.mapMode node = [] := by
    simp [TypeGraph.findingsOf, TypeGraph.formatterFindings, NodeKind.isObject, NodeKind.isUnion,
      hkind, hformatter, hdefects]
  have hsound : a.verdict.isBlocked node.name = false := by
    refine Bool.eq_false_iff.mpr fun hblocked => ?_
    have hdepends := (h.isBlocked_iff.mp hblocked).dependsOn h.complete.distinct hnode hfindings
    have hobject := hdepends.1
    rw [hkind] at hobject
    cases hobject
  have hfull : (a.choices s).fullStrategy node = .assumed := by
    have hverdict : (a.choices s).verdict.isBlocked node.name = false := hsound
    rw [StrategySetting.fullStrategy, hverdict, hformatter, hkind]
    rfl
  have hstrategy : a.strategyOf? node.name = some .assumed := by
    rw [← hfull]
    refine h.strategyOf?_of_parts_eq_nil
      ((TypeGraph.node?_eq_some_iff h.complete.distinct).mpr ⟨hnode, rfl⟩) ?_
    simp [StrategySetting.parts, TypeGraph.passedOn, hkind]
  refine ⟨hfindings, hsound, hstrategy, ?_⟩
  rw [htable, h.find?_ofGraph, hstrategy]
  rfl

theorem not_leavesAlone (h : Analyzed s a) {node : Node} (hnode : node ∈ a.graph.nodes)
    (hsome : (∃ custom, node.formatter = some custom) ∨ node.defects ≠ []) :
    ¬ a.LeavesAlone s node := by
  intro halone
  rcases hsome with ⟨custom, hformatter⟩ | hdefects
  · -- The formatter is the strategy, since the node is not blocked.
    have hstrategy := halone.strategy
    rw [h.strategyOf?_of_formatter hnode hformatter, halone.sound] at hstrategy
    simp at hstrategy
  · have hfindings := halone.findings
    simp [TypeGraph.findingsOf, hdefects] at hfindings

end Analyzed

/-- Of the types that another resolver formats, the analysis leaves alone those whose declarations
carry no formatter attribute, whatever else they carry. -/
theorem leavesAlone_iff {documents : List Document}
    (hload : Assembly.load documents = .ok s.assembly) (hroot : root.index < s.assembly.defs.size)
    (hanalyze : s.analyze control root = .ok a) {node : Node} (hnode : node ∈ a.graph.nodes)
    (hsymbol : node.self.type.symbol? = some symbol) (hd : s.assembly.def? symbol = some d)
    (hassumed : s.isAssumed d = true) :
    a.LeavesAlone s node ↔ Roles.find? s.roles.formatter d.attributes = none := by
  have h := analyzed_of_analyze hload hroot hanalyze
  obtain ⟨t, -, rfl⟩ := h.complete.made node hnode
  rw [nodeOf_self, named_type] at hsymbol
  have hkind := kindOf_of_isAssumed hsymbol hd hassumed
  have hformatter := nodeOf_formatter (s := s) (t := t)
  have hdefects := nodeOf_defects_of_assumed hkind
  rw [attributesAt_of_symbol? hsymbol hd] at hformatter hdefects
  constructor
  · intro halone
    cases hfound : Roles.find? s.roles.formatter d.attributes with
    | none => rfl
    | some written =>
      refine (h.not_leavesAlone hnode ?_ halone).elim
      rw [hformatter, hdefects]
      exact formatterOf_ne hfound _ _
  · intro hnone
    have hformatterOf : ∀ place, s.formatterOf d.attributes t.args place = (none, []) :=
      fun place => by rw [formatterOf, hnone]
    rw [hformatterOf] at hformatter hdefects
    exact h.leavesAlone (analyze_table hanalyze) hnode (nodeOf_kind.trans hkind) hformatter hdefects

/-- An object with members of two types that another resolver formats.  One of them names a
formatter that has no methods. -/
def safeDocument : Document where
  types := [
    { name := "App.Safe", kind := .concreteClass,
      attributes := [.bare "MessagePack.MessagePackObjectAttribute"],
      members := [
        { name := "Gold", type := some "App.Gold",
          attributes := [.full "MessagePack.KeyAttribute" [.value (.number (.integer 0))]] },
        { name := "Deed", type := some "App.Deed",
          attributes := [.full "MessagePack.KeyAttribute" [.value (.number (.integer 1))]] }] },
    { name := "App.Gold", kind := .concreteClass,
      attributes := [.bare "MessagePack.MessagePackObjectAttribute"],
      members := [{ name := "Weight", type := some "System.Int32" }] },
    { name := "App.Deed", kind := .concreteClass,
      attributes := [
        .full "MessagePack.MessagePackFormatterAttribute" [.typeOf "App.DeedFormatter"]] },
    { name := "App.DeedFormatter", kind := .concreteClass }]

def safeDefs : List TypeDef := [
  { name := "App.Safe", kind := .concreteClass, generics := [], base := none, underlying := none,
    attributes := [⟨⟨90⟩, []⟩],
    members := [
      { name := "Gold", kind := .property, type := some (.named ⟨97⟩ []), params := [],
        access := .everyone, isStatic := false, attributes := [⟨⟨91⟩, [.int 0]⟩] },
      { name := "Deed", kind := .property, type := some (.named ⟨98⟩ []), params := [],
        access := .everyone, isStatic := false, attributes := [⟨⟨91⟩, [.int 1]⟩] }] },
  { name := "App.Gold", kind := .concreteClass, generics := [], base := none, underlying := none,
    attributes := [⟨⟨90⟩, []⟩],
    members := [
      { name := "Weight", kind := .property, type := some (.named ⟨5⟩ []), params := [],
        access := .everyone, isStatic := false, attributes := [] }] },
  { name := "App.Deed", kind := .concreteClass, generics := [], base := none, underlying := none,
    attributes := [⟨⟨95⟩, [.type (.named ⟨99⟩ [])]⟩], members := [] },
  { name := "App.DeedFormatter", kind := .concreteClass, generics := [], base := none,
    underlying := none, attributes := [], members := [] }]

def safeOptions : Options := { assumed := ["App.Deed", "App.Gold"] }

def safeSetting : Setting := .ofDefs safeDefs safeOptions

/-- The object and the types of its members.  Nothing of those is looked at. -/
def safeGraph : TypeGraph :=
  ⟨#[safeSetting.nodeOf (.named ⟨96⟩ []), safeSetting.nodeOf (.named ⟨97⟩ []),
    safeSetting.nodeOf (.named ⟨98⟩ [])]⟩

theorem loads_safeDocument : Assembly.load [safeDocument] = .ok safeSetting.assembly ∧
    of? safeSetting.assembly [] safeOptions = some safeSetting :=
  loads_ofDefs (by decide +kernel) (toOption_eq_some_iff.mp (by decide +kernel)) safeOptions

theorem exists_analyze_safe :
    ∃ a, safeSetting.analyze {} ⟨96⟩ = .ok a ∧ a.graph = safeGraph ∧
      safeSetting.nodeOf (.named ⟨97⟩ []) ∈ a.graph.nodes ∧
      safeSetting.nodeOf (.named ⟨98⟩ []) ∈ a.graph.nodes := by
  have hgraph : safeSetting.graphOf {} ⟨96⟩ = .ok safeGraph :=
    TypeGraph.graphOf_eq_ok rfl (by decide +kernel)
  obtain ⟨a, hanalyze, ha⟩ := exists_analyze_eq_ok hgraph
  refine ⟨a, hanalyze, ha, ?_⟩
  rw [ha, safeGraph]
  exact ⟨Array.mem_iff_getElem?.mpr ⟨1, rfl⟩, Array.mem_iff_getElem?.mpr ⟨2, rfl⟩⟩

/-- The type without formatter is left alone though its member has no key, and the one with a
formatter is not. -/
theorem gold_leavesAlone : Assembly.load [safeDocument] = .ok safeSetting.assembly ∧
    96 < safeSetting.assembly.defs.size ∧ safeSetting.isAssumed safeDefs[1] = true ∧
    safeSetting.isAssumed safeDefs[2] = true ∧ ∃ a, safeSetting.analyze {} ⟨96⟩ = .ok a ∧
      a.LeavesAlone safeSetting (safeSetting.nodeOf (.named ⟨97⟩ [])) ∧
      ¬ a.LeavesAlone safeSetting (safeSetting.nodeOf (.named ⟨98⟩ [])) := by
  obtain ⟨a, hanalyze, -, hgold, hdeed⟩ := exists_analyze_safe
  have hload := loads_safeDocument.1
  have hsize : 96 < safeSetting.assembly.defs.size := by decide +kernel
  have hassumed : safeSetting.isAssumed safeDefs[1] = true ∧
      safeSetting.isAssumed safeDefs[2] = true := by
    decide +kernel
  have hself (symbol : Symbol) :
      (safeSetting.nodeOf (.named symbol [])).self.type.symbol? = some symbol := by
    rw [nodeOf_self]
    rfl
  refine ⟨hload, hsize, hassumed.1, hassumed.2, a, hanalyze, ?_, ?_⟩
  · rw [leavesAlone_iff hload hsize hanalyze hgold (hself ⟨97⟩) rfl hassumed.1]
    decide +kernel
  · rw [leavesAlone_iff hload hsize hanalyze hdeed (hself ⟨98⟩) rfl hassumed.2]
    decide +kernel

/-- The type with a formatter is blocked, though it is formatted elsewhere, and with it the object
that has a member of the type. -/
theorem deed_isBlocked : Assembly.load [safeDocument] = .ok safeSetting.assembly ∧
    of? safeSetting.assembly [] safeOptions = some safeSetting ∧
    safeSetting.isAssumed safeDefs[2] = true ∧ ∃ a, safeSetting.analyze {} ⟨96⟩ = .ok a ∧
      safeSetting.nodeOf (.named ⟨98⟩ []) ∈ a.graph.nodes ∧
      a.graph.findingsOf safeSetting.assembly safeSetting.options.mapMode
        (safeSetting.nodeOf (.named ⟨98⟩ [])) ≠ [] ∧
      a.verdict.isBlocked (safeSetting.nodeOf (.named ⟨98⟩ [])).name = true ∧
      a.strategyOf? (safeSetting.nodeOf (.named ⟨98⟩ [])).name = some .unresolved ∧
      a.verdict.isBlocked (safeSetting.nodeOf (.named ⟨96⟩ [])).name = true := by
  obtain ⟨a, hanalyze, ha, -, hdeed⟩ := exists_analyze_safe
  have h := analyzed_of_analyze loads_safeDocument.1 (by decide +kernel) hanalyze
  have hformatter : (safeSetting.nodeOf (.named ⟨98⟩ [])).formatter =
      some (safeSetting.named (.named ⟨99⟩ [])) := by
    decide +kernel
  have hfindings : a.graph.findingsOf safeSetting.assembly safeSetting.options.mapMode
      (safeSetting.nodeOf (.named ⟨98⟩ [])) ≠ [] := by
    rw [ha]
    decide +kernel
  have hblocked := h.isBlocked_of_findingsOf hdeed hfindings
  refine ⟨loads_safeDocument.1, loads_safeDocument.2, by decide +kernel, a, hanalyze, hdeed,
    hfindings, hblocked, ?_, ?_⟩
  · rw [h.strategyOf?_of_formatter hdeed hformatter, if_pos hblocked]
  · have hsafe : a.graph.node? (safeSetting.nodeOf (.named ⟨96⟩ [])).name =
        some (safeSetting.nodeOf (.named ⟨96⟩ [])) := by
      rw [ha]
      decide +kernel
    obtain ⟨m, hm, hnone, hclosed, hname⟩ : ∃ m ∈ (safeSetting.nodeOf (.named ⟨96⟩ [])).members,
        m.formatter = none ∧ m.declared.type.isClosed = true ∧
          m.declared.name = (safeSetting.nodeOf (.named ⟨98⟩ [])).name := by
      decide +kernel
    exact h.isBlocked_iff.mpr (.member hsafe (by decide +kernel) hm hnone hclosed (hname ▸ .refl)
      (h.isBlocked_iff.mp hblocked))

end Setting

end FormatterPlan
