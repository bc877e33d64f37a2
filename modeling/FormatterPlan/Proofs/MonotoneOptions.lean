import FormatterPlan.Proofs.Blocking
import FormatterPlan.Proofs.Termination
import FormatterPlan.Proofs.UnplacedNodes

/-! Options that are relaxed: more types are formatted elsewhere, or all objects are written as
maps.  A type that another resolver formats is looked at no further, so the graph can only become
smaller.  What is left in it is as before or is formatted elsewhere, so no rule finds more: leaves
without a formatter, negative positions and unmarked variants can only go away.  Hence what is
blocked after options are relaxed was blocked before. -/

namespace FormatterPlan

namespace Setting

/-- The same declarations and roles, with other options. -/
def withOptions (s : Setting) (options : Options) : Setting := { s with options }

/-- Whether options assume all types that those of a setting assume, and write all objects as maps
if those do. -/
structure Relaxes (s : Setting) (options : Options) : Prop where
  mapMode : s.options.mapMode = true → options.mapMode = true
  assumed : ∀ symbol d, s.assembly.def? symbol = some d → s.isAssumed d = true →
    (s.withOptions options).isAssumed d = true

variable {s : Setting} {options : Options} {t u : Ty}

theorem relaxes_of_subset (hmapMode : s.options.mapMode = true → options.mapMode = true)
    (hassumed : s.options.assumed ⊆ options.assumed) : s.Relaxes options := by
  refine ⟨hmapMode, fun symbol d _ h => ?_⟩
  rw [isAssumed, Bool.or_eq_true, List.contains_iff_mem, List.contains_iff_mem] at h ⊢
  exact h.imp (fun hname => hassumed hname) (fun hname => hassumed hname)

/-! ### Nodes under other options -/

/-- A kind is as before, or another resolver formats the type. -/
theorem Relaxes.kindOf_cases (h : s.Relaxes options) (t : Ty) :
    (s.withOptions options).kindOf t = .assumed ∨
      (s.withOptions options).kindOf t = s.kindOf t := by
  cases t with
  | named symbol args =>
    have hdef : (s.withOptions options).assembly.def? symbol = s.assembly.def? symbol := rfl
    rw [Setting.kindOf, Setting.kindOf, declaredKind, declaredKind, hdef]
    cases hd : s.assembly.def? symbol with
    | none => exact .inr rfl
    | some d =>
      by_cases hassumed : (s.withOptions options).isAssumed d = true
      · exact .inl (if_pos hassumed)
      · have hbefore : ¬ s.isAssumed d = true := fun hbefore =>
          hassumed (h.assumed symbol d hd hbefore)
        refine .inr ?_
        dsimp only
        rw [if_neg hassumed, if_neg hbefore]
        rfl
  | array element rank => exact .inr rfl
  | param index name => exact .inr rfl

theorem basesAbove_withOptions (steps : Nat) (seen : List Symbol) (t : Ty) :
    (s.withOptions options).basesAbove steps seen t = s.basesAbove steps seen t := by
  induction steps generalizing seen t with
  | zero => rfl
  | succ steps ih =>
    rw [basesAbove, basesAbove]
    simp only [ih]
    rfl

theorem nodeOf_withOptions (hkind : (s.withOptions options).kindOf t = s.kindOf t) :
    (s.withOptions options).nodeOf t = s.nodeOf t := by
  have hbases : (s.withOptions options).basesOf t = s.basesOf t := basesAbove_withOptions _ _ _
  unfold nodeOf
  rw [hkind, hbases]
  rfl

theorem Relaxes.kindOf_eq (h : s.Relaxes options)
    (hkind : (s.withOptions options).kindOf t ≠ .assumed) :
    (s.withOptions options).kindOf t = s.kindOf t :=
  (h.kindOf_cases t).resolve_left hkind

theorem Above.of_withOptions {seen : List Symbol}
    (h : (s.withOptions options).Above seen t u) : s.Above seen t u := by
  induction h with
  | base hbase hnew => exact .base hbase hnew
  | further hbase hnew _ ih => exact .further hbase hnew ih

/-- Types refer to no more than before: to what they did, or to nothing. -/
theorem Relaxes.refers (h : s.Relaxes options) (hrefers : (s.withOptions options).Refers t u) :
    s.Refers t u := by
  have hkinds : ∀ {P : NodeKind → Prop}, ¬ P .assumed →
      P ((s.withOptions options).kindOf t) → P (s.kindOf t) := by
    intro P hassumed hP
    rwa [← h.kindOf_eq fun heq => hassumed (heq ▸ hP)]
  have hobject : ((s.withOptions options).kindOf t).isObject = true →
      (s.kindOf t).isObject = true :=
    hkinds (P := fun kind => kind.isObject = true) Bool.false_ne_true
  cases hrefers with
  | base hkind habove hclosed => exact .base (hobject hkind) habove.of_withOptions hclosed
  | member hkind hlevel hdata hwritten htype hclosed =>
    exact .member (hobject hkind) (hlevel.imp_right Above.of_withOptions) hdata hwritten htype
      hclosed
  | variant hkind hattribute hunion hargs hclosed =>
    exact .variant (hkinds (P := fun kind => kind.isUnion = true) Bool.false_ne_true hkind)
      hattribute hunion hargs hclosed
  | element hkind harray =>
    exact .element (hkinds (P := fun kind => kind = .collection _) (by simp) hkind) harray
  | argument hkind hargument =>
    exact .argument (hkinds (P := fun kind => kind = .collection _) (by simp) hkind) hargument
  | underlying hkind hsymbol hdef hunderlying =>
    exact .underlying (hkinds (P := fun kind => kind = .enumeration) (by simp) hkind) hsymbol hdef
      hunderlying

theorem Relaxes.reachedIn (h : s.Relaxes options) {root : Ty} {k : Nat}
    (hreached : (s.withOptions options).ReachedIn root k t) : s.ReachedIn root k t := by
  induction hreached with
  | root => exact .root
  | step _ hrefers ih => exact .step ih (h.refers hrefers)

end Setting

/-! ### What is left of a node -/

/-- What a node becomes when options are relaxed: it stays, up to the positions of parameters, or
another resolver formats its type.  The formatter that it names stays in both cases. -/
structure Node.Relaxed (node node' : Node) : Prop where
  self : node'.self.retype .unplaced = node.self.retype .unplaced
  formatter : node'.formatter.map (·.retype .unplaced) = node.formatter.map (·.retype .unplaced)
  defects : node'.defects ⊆ node.defects
  stays : node'.kind = .assumed ∨ node'.retype .unplaced = node.retype .unplaced

theorem Setting.Relaxes.node {s : Setting} {options : Options} (h : s.Relaxes options) {t t' : Ty}
    (hsame : t.unplaced = t'.unplaced) :
    (s.nodeOf t).Relaxed ((s.withOptions options).nodeOf t') := by
  have hnodes := nodeOf_congr (s := s) hsame
  have hself : (s.nodeOf t').self.retype .unplaced = (s.nodeOf t).self.retype .unplaced :=
    congrArg Node.self hnodes.symm
  have hformatter : (s.nodeOf t').formatter.map (·.retype .unplaced) =
      (s.nodeOf t).formatter.map (·.retype .unplaced) := congrArg Node.formatter hnodes.symm
  have hdefects : (s.nodeOf t').defects = (s.nodeOf t).defects := by
    have hretyped := congrArg Node.defects hnodes.symm
    exact hretyped
  rcases h.kindOf_cases t' with hkind | hkind
  · refine ⟨?_, ?_, ?_, .inl (by rw [nodeOf_kind, hkind])⟩
    · rw [nodeOf_self, ← hself, nodeOf_self]
      rfl
    · rw [nodeOf_formatter, ← hformatter, nodeOf_formatter]
      rfl
    · rw [nodeOf_defects, ← hdefects, nodeOf_defects, hkind]
      show (s.formatterOf _ _ _).2 ++ [] ⊆ (s.formatterOf _ _ _).2 ++ _
      rw [List.append_nil]
      exact List.subset_append_left _ _
  · rw [nodeOf_withOptions hkind]
    exact ⟨hself, hformatter, hdefects ▸ List.Subset.refl _, .inr hnodes.symm⟩

namespace Node.Relaxed

variable {node node' : Node} (h : node.Relaxed node')

include h

theorem name : node'.name = node.name := (NamedType.mk.inj h.self).2

theorem isSome_formatter : node'.formatter.isSome = node.formatter.isSome := by
  rw [← Option.isSome_map (f := NamedType.retype .unplaced), h.formatter, Option.isSome_map]

/-- A node that is formatted by no other resolver than before stays. -/
theorem retype_eq (hkind : node'.kind ≠ .assumed) :
    node'.retype .unplaced = node.retype .unplaced :=
  h.stays.resolve_left hkind

theorem kind_eq (hkind : node'.kind ≠ .assumed) : node'.kind = node.kind := by
  have hretyped := congrArg Node.kind (h.retype_eq hkind)
  exact hretyped

end Node.Relaxed

/-! ### Graphs -/

namespace TypeGraph

/-- A complete graph, and what is left of it when options are relaxed. -/
structure Shrinks (s : Setting) (options : Options) (graph graph' : TypeGraph) : Prop where
  complete : Complete s graph
  complete' : Complete (s.withOptions options) graph'
  relaxes : s.Relaxes options
  names : graph'.names ⊆ graph.names

variable {s : Setting} {options : Options} {graph graph' : TypeGraph}

namespace Shrinks

variable (h : Shrinks s options graph graph')

include h

/-- Each node that is left is what became of the node of its name. -/
theorem exists_node {name : TypeName} {node' : Node} (hnode' : graph'.node? name = some node') :
    ∃ node, graph.node? name = some node ∧ node.Relaxed node' := by
  obtain ⟨t', ht', hname', rfl⟩ := h.complete'.node?_made hnode'
  obtain ⟨t, ht, hname, hnode⟩ := h.complete.exists_node? (h.names (mem_names_of_node? hnode'))
  have hsame : t.unplaced = t'.unplaced :=
    h.complete.wellFormed.distinct.unplaced_eq ht ht' (hname.trans hname'.symm)
  exact ⟨s.nodeOf t, hnode, h.relaxes.node hsame⟩

/-- Types of one name that are left have formatters of one name. -/
theorem formatterName_eq {name : TypeName} (hname : name ∈ graph'.names) :
    graph'.formatterName name = graph.formatterName name := by
  obtain ⟨node', hnode'⟩ := exists_node?_of_mem_names hname
  obtain ⟨node, hnode, hrelaxed⟩ := h.exists_node hnode'
  have hformatter := congrArg (Option.map NamedType.name) hrelaxed.formatter
  rw [Option.map_map, Option.map_map] at hformatter
  rw [formatterName, formatterName, hnode', hnode]
  exact hformatter

/-! ### Leaves -/

theorem leavesAt_subset (name : TypeName) {parts parts' : List TypeName} (hparts : parts' ⊆ parts) :
    graph'.leavesAt name parts' ⊆ graph.leavesAt name parts := by
  unfold leavesAt
  cases hnode' : graph'.node? name with
  | none => exact List.nil_subset _
  | some node' =>
    obtain ⟨node, hnode, hrelaxed⟩ := h.exists_node hnode'
    rw [hnode]
    dsimp only
    rw [hrelaxed.isSome_formatter]
    split
    · exact List.nil_subset _
    · cases hkind : node'.kind with
      | assumed => exact List.nil_subset _
      | unresolved =>
        rw [← hrelaxed.kind_eq (by simp [hkind]), hkind]
        exact List.Subset.refl _
      | collection shape =>
        rw [← hrelaxed.kind_eq (by simp [hkind]), hkind]
        exact hparts
      | _ => exact List.nil_subset _

end Shrinks

mutual

/-- No type has more leaves than before. -/
theorem Shrinks.bareLeaves_subset (h : Shrinks s options graph graph') :
    ∀ name, graph'.bareLeaves name ⊆ graph.bareLeaves name
  | .named name args => by
    rw [bareLeaves, bareLeaves]
    exact h.leavesAt_subset _ (Shrinks.bareLeavesOfAll_subset h args)
  | .array element rank => by
    rw [bareLeaves, bareLeaves]
    exact h.leavesAt_subset _ (Shrinks.bareLeaves_subset h element)
  | .param name => by
    rw [bareLeaves, bareLeaves]
    exact h.leavesAt_subset _ (List.Subset.refl _)

theorem Shrinks.bareLeavesOfAll_subset (h : Shrinks s options graph graph') :
    ∀ names, graph'.bareLeavesOfAll names ⊆ graph.bareLeavesOfAll names
  | [] => by
    rw [bareLeavesOfAll]
    exact List.nil_subset _
  | name :: rest => by
    rw [bareLeavesOfAll, bareLeavesOfAll]
    exact List.append_subset.mpr
      ⟨List.subset_append_of_subset_left _ (Shrinks.bareLeaves_subset h name),
        List.subset_append_of_subset_right _ (Shrinks.bareLeavesOfAll_subset h rest)⟩

end

/-! ### Findings -/

/-- Written as a map, an object has no negative positions. -/
theorem uniquenessFindings_subset {mapMode mapMode' : Bool}
    (hmode : mapMode = true → mapMode' = true) (node : Node) :
    uniquenessFindings mapMode' node ⊆ uniquenessFindings mapMode node := by
  have hmap : node.isMapEncoded mapMode = true → node.isMapEncoded mapMode' = true := by
    unfold Node.isMapEncoded
    rw [Bool.or_eq_true, Bool.or_eq_true]
    exact Or.imp_left hmode
  unfold uniquenessFindings
  dsimp only
  refine List.map_subset _ (List.append_subset.mpr
    ⟨List.subset_append_left _ _, List.subset_append_of_subset_right _ (List.map_subset _ ?_)⟩)
  split
  · exact List.nil_subset _
  · rename_i hkeys
    rw [if_neg (mt hmap hkeys)]
    exact List.Subset.refl _

namespace Shrinks

variable (h : Shrinks s options graph graph')

include h

theorem markingFindings_subset (node : Node) :
    graph'.markingFindings node ⊆ graph.markingFindings node := by
  intro f hf
  obtain ⟨m, hm, hf⟩ := List.mem_flatMap.mp hf
  refine List.mem_flatMap.mpr ⟨m, hm, ?_⟩
  split at hf
  · cases hf
  · rename_i hbare
    rw [if_neg hbare]
    obtain ⟨leaf, hleaf, rfl⟩ := List.mem_map.mp hf
    refine List.mem_map_of_mem ?_
    rw [unmarkedLeaves, List.mem_eraseDups] at hleaf ⊢
    exact h.bareLeaves_subset _ hleaf

/-- What is a type of a variant stays one, even if another resolver formats it. -/
theorem isVariantType_of_any {name : TypeName} (hname : name ∈ graph'.names)
    (hany : (graph.node? name).any isVariantType = true) :
    (graph'.node? name).any isVariantType = true := by
  obtain ⟨node', hnode'⟩ := exists_node?_of_mem_names hname
  obtain ⟨node, hnode, hrelaxed⟩ := h.exists_node hnode'
  rw [hnode, Option.any_some, isVariantType, Bool.or_eq_true] at hany
  rw [hnode', Option.any_some, isVariantType, Bool.or_eq_true, hrelaxed.isSome_formatter]
  refine hany.imp_right fun hkind => ?_
  by_cases hassumed : node'.kind = .assumed
  · rw [hassumed]
  · rwa [hrelaxed.kind_eq hassumed]

theorem variantFindings_subset {node : Node}
    (hvariants : ∀ v ∈ node.variants, v.type.name ∈ graph'.names) :
    graph'.variantFindings node ⊆ graph.variantFindings node := by
  unfold variantFindings
  dsimp only
  refine List.append_subset.mpr ⟨List.subset_append_left _ _,
    List.subset_append_of_subset_right _ (List.map_subset _ fun v hv => ?_)⟩
  obtain ⟨hv, hunmarked⟩ := List.mem_filter.mp hv
  refine List.mem_filter.mpr ⟨hv, ?_⟩
  rw [Bool.not_eq_true'] at hunmarked ⊢
  by_contra hmarked
  rw [Bool.not_eq_false] at hmarked
  rw [h.isVariantType_of_any (hvariants v hv) hmarked] at hunmarked
  cases hunmarked

/-- The formatters that members and their types name stay, and so do their conflicts. -/
theorem memberFormatterFindings_eq (asm : Assembly) {node : Node}
    (hmembers : ∀ m ∈ node.members, m.declared.type.isClosed = true →
      m.declared.name ∈ graph'.names) :
    graph'.memberFormatterFindings asm node = graph.memberFormatterFindings asm node := by
  have hretyped := memberFormatterFindings_retype node (.refl asm) fun m hm hclosed =>
    h.formatterName_eq (hmembers m hm hclosed)
  rwa [Node.retype_id] at hretyped

/-- A node that stays has no finding that it did not have. -/
theorem findingsOf_subset_of_stays (asm : Assembly) {name : TypeName} {node : Node}
    {mapMode mapMode' : Bool} (hmode : mapMode = true → mapMode' = true)
    (hnode : graph'.node? name = some node) :
    graph'.findingsOf asm mapMode' node ⊆ graph.findingsOf asm mapMode node := by
  have hrefs : ∀ r ∈ node.refs, r.name ∈ graph'.names :=
    h.complete'.closed node ((node?_eq_some_iff h.complete'.distinct).mp hnode).1
  have hmembers := h.memberFormatterFindings_eq asm fun m hm hclosed =>
    hrefs _ (Node.mem_refs_of_mem_members hm hclosed)
  have hvariants := h.variantFindings_subset fun v hv =>
    hrefs _ (Node.mem_refs_of_mem_variants hv)
  intro f
  unfold findingsOf
  rw [hmembers]
  simp only [List.mem_append]
  refine Or.imp_left (Or.imp_left (Or.imp ?_ ?_))
  · split
    · simp only [List.mem_append]
      refine Or.imp_left (Or.imp (Or.imp_left (Or.imp_left ?_)) ?_)
      · exact fun hf => h.markingFindings_subset node hf
      · exact fun hf => uniquenessFindings_subset hmode node hf
    · exact id
  · split
    · exact fun hf => hvariants hf
    · exact id

/-- No node that is left has a finding that the node of its name did not have. -/
theorem findingsOf_subset (asm : Assembly) {name : TypeName} {node node' : Node}
    {mapMode mapMode' : Bool} (hmode : mapMode = true → mapMode' = true)
    (hnode' : graph'.node? name = some node') (hrelaxed : node.Relaxed node') :
    graph'.findingsOf asm mapMode' node' ⊆ graph.findingsOf asm mapMode node := by
  rcases hrelaxed.stays with hassumed | hsame
  · -- All that is checked of the type is the formatter that it names, and that is as before.
    have hformatter : formatterFindings asm node' = formatterFindings asm node := by
      exact formatterFindings_eq_of_retype hrelaxed.self hrelaxed.formatter
    intro f hf
    unfold findingsOf at hf ⊢
    simp only [hassumed, NodeKind.isObject, NodeKind.isUnion, Bool.false_eq_true, if_false,
      List.nil_append, hformatter, hrelaxed.name] at hf
    rcases List.mem_append.mp hf with hf | hf
    · exact List.mem_append_left _ (List.mem_append_right _ hf)
    · exact List.mem_append_right _ (List.map_subset _ hrelaxed.defects hf)
  · rw [← findingsOf_eq_of_retype graph mapMode hsame]
    exact h.findingsOf_subset_of_stays asm hmode hnode'

/-! ### Blocked types -/

theorem passes {a b : TypeName} (hpasses : graph'.Passes a b) : graph.Passes a b := by
  obtain ⟨node', hnode', hformatter, hb⟩ := hpasses
  obtain ⟨node, hnode, hrelaxed⟩ := h.exists_node hnode'
  have hkind : node'.kind ≠ .assumed := by
    intro hassumed
    simp [passedOn, hassumed] at hb
  refine ⟨node, hnode, ?_, ?_⟩
  · rw [← Option.isNone_iff_eq_none, ← Option.not_isSome, ← hrelaxed.isSome_formatter, hformatter]
    rfl
  · rwa [← passedOn_eq_of_retype (hrelaxed.retype_eq hkind)]

/-- What is blocked was blocked. -/
theorem blocked {name : TypeName}
    (hblocked : Blocked s.assembly options.mapMode graph' name) :
    Blocked s.assembly s.options.mapMode graph name := by
  have hstays : ∀ {node node' : Node}, node.Relaxed node' → node'.kind.isObject = true →
      node'.retype .unplaced = node.retype .unplaced ∧ node.kind.isObject = true := by
    intro node node' hrelaxed hkind
    have hassumed : node'.kind ≠ .assumed := by
      intro heq
      rw [heq] at hkind
      cases hkind
    exact ⟨hrelaxed.retype_eq hassumed, hrelaxed.kind_eq hassumed ▸ hkind⟩
  -- Along the reasons for a type to be blocked.
  induction hblocked with
  | finding hnode' hfinding =>
    obtain ⟨node, hnode, hrelaxed⟩ := h.exists_node hnode'
    have hsubset := h.findingsOf_subset s.assembly h.relaxes.mapMode hnode' hrelaxed
    refine .finding hnode fun hnil => hfinding ?_
    rw [hnil] at hsubset
    exact List.subset_nil.mp hsubset
  | @base _ _ base hnode' hkind hbase _ ih =>
    obtain ⟨node, hnode, hrelaxed⟩ := h.exists_node hnode'
    obtain ⟨hsame, hobject⟩ := hstays hrelaxed hkind
    have hmem : base.retype .unplaced ∈ (node.retype .unplaced).bases := by
      rw [← hsame]
      exact List.mem_map_of_mem hbase
    obtain ⟨other, hother, heq⟩ := List.mem_map.mp hmem
    have hname : other.name = base.name := (NamedType.mk.inj heq).2
    exact .base hnode hobject hother (hname ▸ ih)
  | @member _ target _ m hnode' hkind hm hformatter hclosed hpasses _ ih =>
    obtain ⟨node, hnode, hrelaxed⟩ := h.exists_node hnode'
    obtain ⟨hsame, hobject⟩ := hstays hrelaxed hkind
    have hmem : m.retype .unplaced ∈ (node.retype .unplaced).members := by
      rw [← hsame]
      exact List.mem_map_of_mem hm
    obtain ⟨n, hn, heq⟩ := List.mem_map.mp hmem
    obtain ⟨htype, hname⟩ : n.declared.type.unplaced = m.declared.type.unplaced ∧
        n.declared.name = m.declared.name :=
      NamedType.mk.inj (congrArg NodeMember.declared heq)
    have hnone : n.formatter.map (·.retype .unplaced) = none := by
      have hmap := congrArg NodeMember.formatter heq
      simp only [NodeMember.retype, hformatter, Option.map_none] at hmap
      exact hmap
    refine .member hnode hobject hn (Option.map_eq_none_iff.mp hnone) ?_ ?_ ih
    · rw [Setting.isClosed_congr htype, hclosed]
    · rw [hname]
      exact Relation.ReflTransGen.mono (fun _ _ => h.passes) _ _ hpasses

end Shrinks

end TypeGraph

namespace Setting

variable {s : Setting} {options : Options}

/-- In a loaded assembly, what relaxed options leave of a graph is part of it, and what is blocked
in it was blocked. -/
theorem graphOf_withOptions {documents : List Document}
    (hload : Assembly.load documents = .ok s.assembly) {root : Symbol}
    (hroot : root.index < s.assembly.defs.size) (hrelaxes : s.Relaxes options)
    {control : RunControl} {graph : TypeGraph} (hgraph : s.graphOf control root = .ok graph) :
    ∃ graph', (s.withOptions options).graphOf control root = .ok graph' ∧
      graph'.names ⊆ graph.names ∧
      ∀ name, ((s.withOptions options).verdictOn graph').isBlocked name = true →
        (s.verdictOn graph).isBlocked name = true := by
  have hwf := Assembly.wellFormed_of_load hload
  have hwf' : (s.withOptions options).assembly.WellFormed := hwf
  have hdiscovers := TypeGraph.discovers_of_graphOf hwf hroot hgraph
  -- Everything that is reached was reached, so discovery ends with no more nodes.
  have hreached : ∀ k name, (s.withOptions options).NameReachedIn
      (TypeGraph.rootType s.assembly root) k name → name ∈ graph.names := by
    rintro k name ⟨t, ht, rfl⟩
    exact (hdiscovers.reachable _).mpr ⟨k, t, hrelaxes.reachedIn ht, rfl⟩
  obtain ⟨graph', hdiscovers', hsize⟩ := TypeGraph.exists_discovers hwf' hroot
    fun k name hname => List.mem_toFinset.mpr (hreached k name hname)
  obtain ⟨hcontrol, hsteps, -⟩ := hdiscovers.graphOf_eq_ok_iff.mp hgraph
  have hcard : graph.names.toFinset.card ≤ graph.nodes.size := by
    simpa [TypeGraph.names] using graph.names.toFinset_card_le
  have hgraph' : (s.withOptions options).graphOf control root = .ok graph' :=
    hdiscovers'.graphOf_eq_ok_iff.mpr ⟨hcontrol, by omega, rfl⟩
  have hnames : graph'.names ⊆ graph.names := by
    intro name hname
    obtain ⟨k, hk⟩ := (hdiscovers'.reachable name).mp hname
    exact hreached k name hk
  have hcomplete := TypeGraph.complete_of_graphOf hwf hroot hgraph
  have hcomplete' := TypeGraph.complete_of_graphOf hwf' hroot hgraph'
  refine ⟨graph', hgraph', hnames, fun name hblocked => ?_⟩
  have hshrinks : TypeGraph.Shrinks s options graph graph' :=
    ⟨hcomplete, hcomplete', hrelaxes, hnames⟩
  apply hcomplete.isBlocked_iff.mpr
  exact hshrinks.blocked (hcomplete'.isBlocked_iff.mp hblocked)

end Setting

/-! ### A ledger -/

/-- A ledger with a negative key, and with members of two faulty types: one that has a part without
attributes, and one whose member has no key. -/
def ledgerDocument : Document where
  types := [
    { name := "App.Ledger", kind := .concreteClass,
      attributes := [.bare "MessagePack.MessagePackObjectAttribute"],
      members := [
        { name := "Balance", type := some "int",
          attributes := [.full "MessagePack.KeyAttribute" [.value (.number (.integer (-1)))]] },
        { name := "Legacy", type := some "App.Legacy",
          attributes := [.full "MessagePack.KeyAttribute" [.value (.number (.integer 1))]] },
        { name := "Draft", type := some "App.Draft",
          attributes := [.full "MessagePack.KeyAttribute" [.value (.number (.integer 2))]] }] },
    { name := "App.Legacy", kind := .concreteClass,
      attributes := [.bare "MessagePack.MessagePackObjectAttribute"],
      members := [
        { name := "Part", type := some "App.Part",
          attributes := [.full "MessagePack.KeyAttribute" [.value (.number (.integer 0))]] }] },
    { name := "App.Part", kind := .concreteClass },
    { name := "App.Draft", kind := .concreteClass,
      attributes := [.bare "MessagePack.MessagePackObjectAttribute"],
      members := [{ name := "Loose", type := some "int" }] }]

def ledgerDefs : List TypeDef := [
  { name := "App.Ledger", kind := .concreteClass, generics := [], base := none, underlying := none,
    attributes := [⟨⟨90⟩, []⟩],
    members := [
      { name := "Balance", kind := .property, type := some (.named ⟨5⟩ []), params := [],
        access := .everyone, isStatic := false, attributes := [⟨⟨91⟩, [.int (-1)]⟩] },
      { name := "Legacy", kind := .property, type := some (.named ⟨97⟩ []), params := [],
        access := .everyone, isStatic := false, attributes := [⟨⟨91⟩, [.int 1]⟩] },
      { name := "Draft", kind := .property, type := some (.named ⟨99⟩ []), params := [],
        access := .everyone, isStatic := false, attributes := [⟨⟨91⟩, [.int 2]⟩] }] },
  { name := "App.Legacy", kind := .concreteClass, generics := [], base := none, underlying := none,
    attributes := [⟨⟨90⟩, []⟩],
    members := [
      { name := "Part", kind := .property, type := some (.named ⟨98⟩ []), params := [],
        access := .everyone, isStatic := false, attributes := [⟨⟨91⟩, [.int 0]⟩] }] },
  { name := "App.Part", kind := .concreteClass, generics := [], base := none, underlying := none,
    attributes := [], members := [] },
  { name := "App.Draft", kind := .concreteClass, generics := [], base := none, underlying := none,
    attributes := [⟨⟨90⟩, []⟩],
    members := [
      { name := "Loose", kind := .property, type := some (.named ⟨5⟩ []), params := [],
        access := .everyone, isStatic := false, attributes := [] }] }]

def ledgerSetting : Setting := .ofDefs ledgerDefs {}

/-- The nodes of the ledger before options are relaxed. -/
def ledgerGraph : TypeGraph :=
  ⟨#[ledgerSetting.nodeOf (.named ⟨96⟩ []), ledgerSetting.nodeOf (.named ⟨5⟩ []),
    ledgerSetting.nodeOf (.named ⟨97⟩ []), ledgerSetting.nodeOf (.named ⟨99⟩ []),
    ledgerSetting.nodeOf (.named ⟨98⟩ [])]⟩

/-- Options that write all objects as maps and leave one of the faulty types to another resolver. -/
def ledgerOptions : Options := { mapMode := true, assumed := ["App.Legacy"] }

theorem loads_ledgerDocument : Assembly.load [ledgerDocument] = .ok ledgerSetting.assembly ∧
    Setting.of? ledgerSetting.assembly [] {} = some ledgerSetting :=
  Setting.loads_ofDefs (by decide +kernel) (toOption_eq_some_iff.mp (by decide +kernel)) {}

theorem ledgerGraph_withOptions : Assembly.load [ledgerDocument] = .ok ledgerSetting.assembly ∧
    96 < ledgerSetting.assembly.defs.size ∧ ledgerSetting.Relaxes ledgerOptions ∧
    ledgerSetting.graphOf {} ⟨96⟩ = .ok ledgerGraph ∧
    ∃ graph', (ledgerSetting.withOptions ledgerOptions).graphOf {} ⟨96⟩ = .ok graph' ∧
      graph'.names ⊆ ledgerGraph.names ∧
      ∀ name, ((ledgerSetting.withOptions ledgerOptions).verdictOn graph').isBlocked name = true →
        (ledgerSetting.verdictOn ledgerGraph).isBlocked name = true := by
  have hroot : 96 < ledgerSetting.assembly.defs.size := by decide +kernel
  have hrelaxes : ledgerSetting.Relaxes ledgerOptions :=
    Setting.relaxes_of_subset (fun _ => rfl) (List.nil_subset _)
  have hgraph : ledgerSetting.graphOf {} ⟨96⟩ = .ok ledgerGraph :=
    TypeGraph.graphOf_eq_ok rfl (by decide +kernel)
  exact ⟨loads_ledgerDocument.1, hroot, hrelaxes, hgraph,
    Setting.graphOf_withOptions loads_ledgerDocument.1 hroot hrelaxes hgraph⟩

end FormatterPlan
