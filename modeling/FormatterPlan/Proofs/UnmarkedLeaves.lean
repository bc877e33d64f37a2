import FormatterPlan.Proofs.Grouping
import FormatterPlan.Proofs.Leaves

/-! The types that an object has to have marked.  A graph may be cyclic, but not through the
elements of collections, whose names are parts of the name of their collection.  The leaves that are
found below a type are therefore all that it leads to, and an object is reported for each of its
members and each different leaf of the member's type. -/

namespace FormatterPlan

namespace TypeGraph

/-- Whether a type is a collection without formatter that has a part for an element. -/
def HasElement (graph : TypeGraph) (name part : TypeName) : Prop :=
  ∃ node, graph.node? name = some node ∧ node.formatter = none ∧
    (∃ shape, node.kind = .collection shape) ∧ ∃ r ∈ node.elements, r.name = part

/-- Whether a type has neither a kind nor a formatter. -/
def IsUnmarked (graph : TypeGraph) (name : TypeName) : Prop :=
  ∃ node, graph.node? name = some node ∧ node.kind = .unresolved ∧ node.formatter = none

/-- Whether elements lead from a type to one without kind and formatter. -/
def HasLeaf (graph : TypeGraph) (name leaf : TypeName) : Prop :=
  Relation.ReflTransGen graph.HasElement name leaf ∧ graph.IsUnmarked leaf

/-- Whether an object has to have the type of a member marked: not if the member names a formatter
itself, and not if its type is open. -/
def needsMarking (m : NodeMember) : Bool := m.formatter.isNone && m.declared.type.isClosed

/-- Whether findings are those of a member of an object: one for each leaf of its type. -/
def IsMarkingOf (graph : TypeGraph) (node : Node) (m : NodeMember) (findings : List Finding) :
    Prop :=
  ∃ leaves : List TypeName, leaves.Nodup ∧
    (∀ leaf, leaf ∈ leaves ↔ graph.HasLeaf m.declared.name leaf) ∧
    findings = leaves.map fun leaf => ⟨.typeNotMarked, node.name, some m.name, [leaf.text]⟩

variable {s : Setting} {graph : TypeGraph} {node : Node}

/-! ### Elements -/

theorem HasElement.sizeOf_lt (hg : Complete s graph) {name part : TypeName}
    (h : graph.HasElement name part) : sizeOf part < sizeOf name := by
  obtain ⟨node, hnode, -, ⟨shape, hkind⟩, r, hr, rfl⟩ := h
  obtain ⟨t, -, rfl, rfl⟩ := hg.node?_made hnode
  rw [Setting.nodeOf_kind] at hkind
  exact Setting.sizeOf_lt_of_mem_elements hkind hr

/-- Elements of elements come to an end. -/
theorem wellFounded_hasElement (hg : Complete s graph) :
    WellFounded fun part name => graph.HasElement name part :=
  Subrelation.wf (HasElement.sizeOf_lt hg) (measure fun name : TypeName => sizeOf name).wf

/-! ### Leaves -/

/-- The leaves of a type are the type itself or those of its elements. -/
theorem hasLeaf_iff {name leaf : TypeName} (hnode : graph.node? name = some node) :
    graph.HasLeaf name leaf ↔ node.formatter = none ∧
      (node.kind = .unresolved ∧ leaf = name ∨
        (∃ shape, node.kind = .collection shape) ∧
          ∃ r ∈ node.elements, graph.HasLeaf r.name leaf) := by
  constructor
  · rintro ⟨hleads, hunmarked⟩
    rcases hleads.cases_head with rfl | ⟨part, hpart, hrest⟩
    · obtain ⟨found, hfound, hkind, hformatter⟩ := hunmarked
      obtain rfl := Option.some.inj (hnode.symm.trans hfound)
      exact ⟨hformatter, .inl ⟨hkind, rfl⟩⟩
    · obtain ⟨found, hfound, hformatter, hkind, r, hr, rfl⟩ := hpart
      obtain rfl := Option.some.inj (hnode.symm.trans hfound)
      exact ⟨hformatter, .inr ⟨hkind, r, hr, hrest, hunmarked⟩⟩
  · rintro ⟨hformatter, ⟨hkind, rfl⟩ | ⟨hkind, r, hr, hleads, hunmarked⟩⟩
    · exact ⟨.refl, node, hnode, hkind, hformatter⟩
    · exact ⟨.head ⟨node, hnode, hformatter, hkind, r, hr, rfl⟩ hleads, hunmarked⟩

theorem mem_bareLeaves_iff (hg : Complete s graph) {name : TypeName} (hname : name ∈ graph.names)
    {leaf : TypeName} : leaf ∈ graph.bareLeaves name ↔ graph.HasLeaf name leaf := by
  induction name using (wellFounded_hasElement hg).induction with
  | _ name ih =>
    obtain ⟨t, -, rfl, hnode⟩ := hg.exists_node? hname
    rw [bareLeaves_typeName hnode, hasLeaf_iff hnode, Setting.nodeOf_kind]
    cases hformatter : (s.nodeOf t).formatter with
    | some custom => simp
    | none =>
      cases hkind : s.kindOf t with
      | unresolved => simp
      | collection shape =>
        have helements : ∀ r ∈ (s.nodeOf t).elements,
            (leaf ∈ graph.bareLeaves r.name ↔ graph.HasLeaf r.name leaf) := fun r hr =>
          ih r.name ⟨_, hnode, hformatter, ⟨shape, Setting.nodeOf_kind.trans hkind⟩, r, hr, rfl⟩
            (hg.closed _ ((node?_eq_some_iff hg.distinct).mp hnode).1 _
              (Node.mem_refs_of_mem_elements hr))
        simp only [Option.isSome_none, Bool.false_eq_true, if_false, List.mem_flatMap, true_and,
          reduceCtorEq, false_and, false_or, NodeKind.collection.injEq, exists_eq', true_and]
        exact exists_congr fun r => and_congr_right (helements r)
      | _ => simp

theorem mem_unmarkedLeaves_iff (hg : Complete s graph) {name : TypeName}
    (hname : name ∈ graph.names) {leaf : TypeName} :
    leaf ∈ graph.unmarkedLeaves name ↔ graph.HasLeaf name leaf := by
  rw [unmarkedLeaves, List.mem_eraseDups, mem_bareLeaves_iff hg hname]

/-! ### The report on an object -/

/-- The findings on the marks of member types, member by member. -/
theorem markingFindings_eq_flatten : graph.markingFindings node =
    (((checkedMembers node).filter needsMarking).map fun m =>
      (graph.unmarkedLeaves m.declared.name).map fun leaf =>
        (⟨.typeNotMarked, node.name, some m.name, [leaf.text]⟩ : Finding)).flatten := by
  rw [markingFindings, ← List.flatMap_def]
  induction checkedMembers node with
  | nil => rfl
  | cons m rest ih =>
    rw [List.flatMap_cons, ih, List.filter_cons]
    cases hformatter : m.formatter <;> cases hclosed : m.declared.type.isClosed <;>
      simp [needsMarking, hformatter, hclosed]

/-- A finding on anything else than the mark of a type. -/
def IsOther (finding : Finding) : Prop := finding.rule ≠ .typeNotMarked

theorem isOther_of_mem_keyFindings : ∀ finding ∈ keyFindings node, IsOther finding := by
  intro finding hmem
  obtain ⟨m, -, rfl⟩ := List.mem_map.mp hmem
  cases m.origin <;> simp [IsOther]

theorem isOther_of_mem_nullKeyFindings : ∀ finding ∈ nullKeyFindings node, IsOther finding := by
  intro finding hmem
  obtain ⟨m, -, rfl⟩ := List.mem_map.mp hmem
  simp [IsOther]

theorem isOther_finding (name : TypeName) (flaw : Flaw) : IsOther (flaw.finding name none) := by
  simp [IsOther, Flaw.finding]

theorem isOther_of_mem_uniquenessFindings {mapMode : Bool} :
    ∀ finding ∈ uniquenessFindings mapMode node, IsOther finding := by
  intro finding hmem
  obtain ⟨flaw, -, rfl⟩ := List.mem_map.mp hmem
  exact isOther_finding node.name flaw

theorem isOther_of_mem_memberFormatterFindings {asm : Assembly} :
    ∀ finding ∈ graph.memberFormatterFindings asm node, IsOther finding := by
  intro finding hmem
  obtain ⟨m, -, hmem⟩ := List.mem_flatMap.mp hmem
  dsimp only at hmem
  repeat' split at hmem
  all_goals simp at hmem
  all_goals rcases hmem with rfl | rfl
  all_goals simp [IsOther]

theorem isOther_of_mem_formatterFindings {asm : Assembly} :
    ∀ finding ∈ formatterFindings asm node, IsOther finding := by
  intro finding hmem
  rw [formatterFindings] at hmem
  repeat' split at hmem
  all_goals simp_all [IsOther]

/-- Of the checks of an object only the one on the marks of member types reports unmarked types. -/
theorem filter_findingsOf_typeNotMarked {asm : Assembly} {mapMode : Bool}
    (hobject : node.kind.isObject = true) :
    (graph.findingsOf asm mapMode node).filter (·.rule = .typeNotMarked) =
      graph.markingFindings node := by
  have hmarks : (graph.markingFindings node).filter (·.rule = .typeNotMarked) =
      graph.markingFindings node := by
    refine List.filter_eq_self.mpr fun finding hmem => ?_
    rw [markingFindings_eq_flatten] at hmem
    obtain ⟨_, hpart, hmem⟩ := List.mem_flatten.mp hmem
    obtain ⟨m, -, rfl⟩ := List.mem_map.mp hpart
    obtain ⟨leaf, -, rfl⟩ := List.mem_map.mp hmem
    rfl
  have hothers : ∀ {findings : List Finding}, (∀ finding ∈ findings, IsOther finding) →
      findings.filter (·.rule = .typeNotMarked) = [] := fun h =>
    List.filter_eq_nil_iff.mpr fun finding hmem => by simpa [IsOther] using h finding hmem
  have hdefects : ∀ finding ∈ node.defects.map fun d => (Flaw.defect d).finding node.name none,
      IsOther finding := by
    intro finding hmem
    obtain ⟨d, -, rfl⟩ := List.mem_map.mp hmem
    exact isOther_finding node.name _
  rw [findingsOf, if_pos hobject, NodeKind.isUnion_of_isObject hobject, if_neg Bool.false_ne_true]
  simp only [List.filter_append, hmarks, hothers isOther_of_mem_keyFindings,
    hothers isOther_of_mem_nullKeyFindings, hothers isOther_of_mem_uniquenessFindings,
    hothers isOther_of_mem_memberFormatterFindings, hothers isOther_of_mem_formatterFindings,
    hothers hdefects, List.append_nil]

/-- In the graph of a root of a loaded assembly the search for leaves ends and finds each leaf of a
type once, and an object is reported for exactly the leaves of its members. -/
theorem unmarkedLeaves_of_graphOf {documents : List Document}
    (hload : Assembly.load documents = .ok s.assembly) {control : RunControl} {root : Symbol}
    (hroot : root.index < s.assembly.defs.size) (hgraph : s.graphOf control root = .ok graph) :
    (WellFounded fun part name => graph.HasElement name part) ∧
      (∀ name ∈ graph.names, (graph.unmarkedLeaves name).Nodup ∧
        ∀ leaf, leaf ∈ graph.unmarkedLeaves name ↔ graph.HasLeaf name leaf) ∧
      ∀ node ∈ graph.nodes, node.kind.isObject = true →
        (∀ mapMode, (graph.findingsOf s.assembly mapMode node).filter (·.rule = .typeNotMarked) =
          graph.markingFindings node) ∧
        ∃ parts, List.Forall₂ (graph.IsMarkingOf node) ((checkedMembers node).filter needsMarking)
          parts ∧ graph.markingFindings node = parts.flatten := by
  have hg := complete_of_graphOf (Assembly.wellFormed_of_load hload) hroot hgraph
  have hleaves : ∀ name ∈ graph.names, (graph.unmarkedLeaves name).Nodup ∧
      ∀ leaf, leaf ∈ graph.unmarkedLeaves name ↔ graph.HasLeaf name leaf := fun name hname =>
    ⟨nodup_eraseDups _, fun leaf => mem_unmarkedLeaves_iff hg hname⟩
  refine ⟨wellFounded_hasElement hg, hleaves, fun node hnode hobject =>
    ⟨fun mapMode => filter_findingsOf_typeNotMarked hobject, _, ?_, markingFindings_eq_flatten⟩⟩
  rw [List.forall₂_map_right_iff, List.forall₂_same]
  intro m hm
  obtain ⟨hchecked, hneeds⟩ := List.mem_filter.mp hm
  have hclosed : m.declared.type.isClosed = true := (Bool.and_eq_true_iff.mp hneeds).2
  have hname : m.declared.name ∈ graph.names := hg.closed node hnode _
    (Node.mem_refs_of_mem_members (List.mem_of_mem_filter hchecked) hclosed)
  exact ⟨graph.unmarkedLeaves m.declared.name, (hleaves _ hname).1, (hleaves _ hname).2, rfl⟩

/-! ### A class in two collections -/

/-- A class that refers to itself and stores another one, which is not marked, in nested
collections. -/
def shelfDocument : Document where
  types := [
    { name := "App.Shelf", kind := .concreteClass,
      attributes := [.bare "MessagePack.MessagePackObjectAttribute"],
      members := [
        { name := "Next", type := some "App.Shelf",
          attributes := [.full "MessagePack.KeyAttribute" [.value (.number (.integer 0))]] },
        { name := "Books",
          type := some "System.Collections.Generic.Dictionary<App.Book, App.Book[]>",
          attributes := [.full "MessagePack.KeyAttribute" [.value (.number (.integer 1))]] }] },
    { name := "App.Book", kind := .concreteClass }]

def bookType : Ty := .named ⟨97⟩ []

/-- The dictionaries that the member for books stores. -/
def booksType : Ty := .named ⟨45⟩ [bookType, .array bookType 1]

def shelfDefs : List TypeDef := [
  { name := "App.Shelf", kind := .concreteClass, generics := [], base := none, underlying := none,
    attributes := [⟨⟨90⟩, []⟩],
    members := [
      { name := "Next", kind := .property, type := some (.named ⟨96⟩ []), params := [],
        access := .everyone, isStatic := false, attributes := [⟨⟨91⟩, [.int 0]⟩] },
      { name := "Books", kind := .property, type := some booksType, params := [],
        access := .everyone, isStatic := false, attributes := [⟨⟨91⟩, [.int 1]⟩] }] },
  { name := "App.Book", kind := .concreteClass, generics := [], base := none, underlying := none,
    attributes := [], members := [] }]

def shelfSetting : Setting := .ofDefs shelfDefs {}

/-- The class of shelves, its dictionaries, and what these are made of. -/
def shelfGraph : TypeGraph :=
  ⟨#[shelfSetting.nodeOf (.named ⟨96⟩ []), shelfSetting.nodeOf booksType,
    shelfSetting.nodeOf bookType, shelfSetting.nodeOf (.array bookType 1)]⟩

theorem loads_shelfDocument : Assembly.load [shelfDocument] = .ok shelfSetting.assembly ∧
    Setting.of? shelfSetting.assembly [] {} = some shelfSetting :=
  Setting.loads_ofDefs (by decide +kernel) (toOption_eq_some_iff.mp (by decide +kernel)) {}

/-- Books are reported once, although two collections lead to them. -/
theorem unmarkedLeaves_shelf : Assembly.load [shelfDocument] = .ok shelfSetting.assembly ∧
    96 < shelfSetting.assembly.defs.size ∧ shelfSetting.graphOf {} ⟨96⟩ = .ok shelfGraph ∧
    shelfGraph.HasLeaf (shelfSetting.assembly.typeName booksType) (.named "App.Book" []) ∧
    shelfGraph.markingFindings (shelfSetting.nodeOf (.named ⟨96⟩ [])) =
      [⟨.typeNotMarked, .named "App.Shelf" [], some "Books", ["App.Book"]⟩] := by
  have hgraph : shelfSetting.graphOf {} ⟨96⟩ = .ok shelfGraph :=
    graphOf_eq_ok rfl (by decide +kernel)
  have hsize : 96 < shelfSetting.assembly.defs.size := by decide +kernel
  obtain ⟨-, hleaves, -⟩ := unmarkedLeaves_of_graphOf loads_shelfDocument.1 hsize hgraph
  have hname : shelfSetting.assembly.typeName booksType ∈ shelfGraph.names := by decide +kernel
  exact ⟨loads_shelfDocument.1, hsize, hgraph,
    ((hleaves _ hname).2 _).mp (by decide +kernel), by decide +kernel⟩

end TypeGraph

end FormatterPlan
