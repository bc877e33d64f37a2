import FormatterPlan.TypeGraph.Verdict
import Mathlib.Data.List.Basic

/-! What the checks of a node go by.  They read its names and its keys.  Of its types they ask only
whether these are closed and whether one is a formatter of another, so types that answer alike may
stand in for each other.  Of the graph they ask only about the types that the node refers to. -/

namespace FormatterPlan

def NamedType.retype (f : Ty → Ty) (r : NamedType) : NamedType := ⟨f r.type, r.name⟩

def NodeMember.retype (f : Ty → Ty) (m : NodeMember) : NodeMember :=
  { m with declared := m.declared.retype f, formatter := m.formatter.map (·.retype f) }

def Variant.retype (f : Ty → Ty) (v : Variant) : Variant := ⟨v.tag, v.type.retype f⟩

/-- A node with other types of the same names. -/
def Node.retype (f : Ty → Ty) (node : Node) : Node :=
  { node with
    self := node.self.retype f
    members := node.members.map (·.retype f)
    bases := node.bases.map (·.retype f)
    variants := node.variants.map (·.retype f)
    elements := node.elements.map (·.retype f)
    formatter := node.formatter.map (·.retype f) }

/-- Whether the types of one assembly answer like those that they stand in for in another. -/
structure Assembly.Answers (f : Ty → Ty) (asm asm' : Assembly) : Prop where
  isClosed : ∀ t, (f t).isClosed = t.isClosed
  isFormatterOf : ∀ formatter target,
    asm'.isFormatterOf (f formatter) (f target) = asm.isFormatterOf formatter target

theorem Assembly.Answers.refl (asm : Assembly) : asm.Answers id asm :=
  ⟨fun _ => rfl, fun _ _ => rfl⟩

variable {f : Ty → Ty}

theorem Node.retype_id (node : Node) : node.retype id = node := by
  have hnamed : NamedType.retype id = id := rfl
  have hmember : NodeMember.retype id = id := by
    funext m
    simp [NodeMember.retype, hnamed]
  have hvariant : Variant.retype id = id := rfl
  simp [retype, hnamed, hmember, hvariant]

@[simp] theorem NamedType.name_retype (r : NamedType) : (r.retype f).name = r.name := rfl

@[simp] theorem Node.name_retype (node : Node) : (node.retype f).name = node.name := rfl

@[simp] theorem Node.kind_retype (node : Node) : (node.retype f).kind = node.kind := rfl

@[simp] theorem Node.defects_retype (node : Node) : (node.retype f).defects = node.defects := rfl

namespace TypeGraph

variable (node : Node)

theorem passedOn_retype : passedOn (node.retype f) = passedOn node := by
  unfold passedOn
  rw [Node.kind_retype]
  cases node.kind <;> simp [Node.retype, Variant.retype, Function.comp_def]

theorem checkedMembers_retype :
    checkedMembers (node.retype f) = (checkedMembers node).map (·.retype f) := by
  simp only [checkedMembers, Node.retype, List.filter_map]
  rfl

theorem keyFindings_retype : keyFindings (node.retype f) = keyFindings node := by
  simp only [keyFindings, checkedMembers_retype, List.filter_map, List.map_map]
  rfl

theorem nullKeyFindings_retype : nullKeyFindings (node.retype f) = nullKeyFindings node := by
  simp only [nullKeyFindings, checkedMembers_retype, List.filter_map, List.map_map]
  rfl

theorem uniquenessFindings_retype (mapMode : Bool) :
    uniquenessFindings mapMode (node.retype f) = uniquenessFindings mapMode node := by
  have hmembers : (node.retype f).members = node.members.map (·.retype f) := rfl
  have hints : intKeys (node.retype f) = intKeys node := by
    simp only [intKeys, hmembers, List.filterMap_map]
    rfl
  have hstrings : stringKeys (node.retype f) = stringKeys node := by
    simp only [stringKeys, hmembers, List.filterMap_map]
    rfl
  have hmap : (node.retype f).isMapEncoded mapMode = node.isMapEncoded mapMode := by
    simp only [Node.isMapEncoded, hmembers, List.any_map]
    rfl
  rw [uniquenessFindings, uniquenessFindings, hints, hstrings, hmap, Node.name_retype]

/-- The name of the formatter that the node of a type names. -/
def formatterName (graph : TypeGraph) (name : TypeName) : Option TypeName :=
  ((graph.node? name).bind (·.formatter)).map (·.name)

/-- Graphs that say the same of the types that a node refers to, as far as its checks ask. -/
structure Agree (node : Node) (graph graph' : TypeGraph) : Prop where
  leaves : ∀ m ∈ node.members, m.declared.type.isClosed = true →
    graph'.bareLeaves m.declared.name = graph.bareLeaves m.declared.name
  formatterName : ∀ m ∈ node.members, m.declared.type.isClosed = true →
    graph'.formatterName m.declared.name = graph.formatterName m.declared.name
  isVariantType : ∀ v ∈ node.variants,
    (graph'.node? v.type.name).any isVariantType = (graph.node? v.type.name).any isVariantType

theorem Agree.refl (graph : TypeGraph) : Agree node graph graph :=
  ⟨fun _ _ _ => rfl, fun _ _ _ => rfl, fun _ _ => rfl⟩

variable {graph graph' : TypeGraph}

theorem variantFindings_retype (h : Agree node graph graph') :
    graph'.variantFindings (node.retype f) = graph.variantFindings node := by
  have hvariants : (node.retype f).variants = node.variants.map (·.retype f) := rfl
  have hunmarked :
      (node.variants.filter fun v => !(graph'.node? v.type.name).any isVariantType) =
        node.variants.filter fun v => !(graph.node? v.type.name).any isVariantType :=
    List.filter_congr fun v hv => by rw [h.isVariantType v hv]
  simp only [variantFindings, hvariants, List.map_map, List.filter_map, Function.comp_def,
    Variant.retype, NamedType.name_retype, Node.name_retype, hunmarked]

section

variable {asm asm' : Assembly} (hf : asm.Answers f asm')

include hf

theorem markingFindings_retype (h : Agree node graph graph') :
    graph'.markingFindings (node.retype f) = graph.markingFindings node := by
  simp only [markingFindings, checkedMembers_retype, List.flatMap_map, unmarkedLeaves,
    NodeMember.retype, NamedType.retype, hf.isClosed, Option.isSome_map, Node.name_retype]
  refine List.flatMap_congr fun m hm => ?_
  cases hclosed : m.declared.type.isClosed with
  | false => simp
  | true => rw [h.leaves m (List.mem_filter.mp hm).1 hclosed]

/-- The formatters of members are checked the same wherever their types have formatters of the same
names. -/
theorem memberFormatterFindings_retype
    (hown : ∀ m ∈ node.members, m.declared.type.isClosed = true →
      graph'.formatterName m.declared.name = graph.formatterName m.declared.name) :
    graph'.memberFormatterFindings asm' (node.retype f) =
      graph.memberFormatterFindings asm node := by
  simp only [memberFormatterFindings, checkedMembers_retype, List.flatMap_map]
  refine List.flatMap_congr fun m hm => ?_
  have hm' := hown m (List.mem_filter.mp hm).1
  obtain ⟨name, declared, access, key, formatter, origin⟩ := m
  cases formatter with
  | none => rfl
  | some custom =>
    simp only [NodeMember.retype, Option.map_some, NamedType.retype, hf.isFormatterOf, hf.isClosed,
      Node.name_retype]
    congr 1
    cases hclosed : declared.type.isClosed with
    | false => rfl
    | true =>
      have hnames := hm' hclosed
      unfold formatterName at hnames
      -- Either neither type names a formatter, or both name one, of the same name.
      generalize (graph'.node? declared.name).bind (·.formatter) = own' at hnames ⊢
      generalize (graph.node? declared.name).bind (·.formatter) = own at hnames ⊢
      match own', own, hnames with
      | none, none, _ => rfl
      | some own', some own, hnames =>
        have hname : own'.name = own.name := Option.some.inj hnames
        simp only [if_true, hname]

theorem formatterFindings_retype :
    formatterFindings asm' (node.retype f) = formatterFindings asm node := by
  have hself : (node.retype f).self.type = f node.self.type := rfl
  have hformatter : (node.retype f).formatter = node.formatter.map (·.retype f) := rfl
  rw [formatterFindings, formatterFindings, hformatter, hself]
  cases node.formatter with
  | none => rfl
  | some custom =>
    simp only [Option.map_some, NamedType.retype, hf.isFormatterOf, Node.name_retype]

/-- A node has the findings of the one that it stands in for. -/
theorem findingsOf_retype (h : Agree node graph graph') (mapMode : Bool) :
    graph'.findingsOf asm' mapMode (node.retype f) = graph.findingsOf asm mapMode node := by
  rw [findingsOf, findingsOf, markingFindings_retype node hf h, keyFindings_retype,
    nullKeyFindings_retype, uniquenessFindings_retype,
    memberFormatterFindings_retype node hf h.formatterName, variantFindings_retype node h,
    formatterFindings_retype node hf, Node.name_retype, Node.kind_retype, Node.defects_retype]

end

/-- A node has the same findings in graphs that agree on what it refers to. -/
theorem Agree.findingsOf_eq {node : Node} (h : Agree node graph graph') (asm : Assembly)
    (mapMode : Bool) : graph'.findingsOf asm mapMode node = graph.findingsOf asm mapMode node := by
  have hretyped := findingsOf_retype node (.refl asm) h mapMode
  rwa [Node.retype_id] at hretyped

end TypeGraph

end FormatterPlan
