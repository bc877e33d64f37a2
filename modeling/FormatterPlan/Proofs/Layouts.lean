import FormatterPlan.Proofs.Grouping
import FormatterPlan.Proofs.Lists
import FormatterPlan.Proofs.WrittenMembers

/-! The layout of an object that is written.  The choice of a strategy sorts and counts whatever
keys there are; that keys are different, and that positions are not negative, comes from the checks,
which an object that is not blocked has passed with the same map mode.  By key, members are in the
order of the node, which has those of the outermost base first. -/

namespace FormatterPlan

/-- Whether a number has 32 bits. -/
def IsInt32 (n : Int) : Prop := -2 ^ 31 ≤ n ∧ n < 2 ^ 31

instance (n : Int) : Decidable (IsInt32 n) := inferInstanceAs (Decidable (_ ∧ _))

/-- The key of a planned member as the key of a member. -/
def PlannedKey.memberKey : PlannedKey → MemberKey
  | .int n => .int n
  | .string s => .string s

/-- Whether a planned member is the plan of a member of a node. -/
structure NodeMember.IsPlannedAs (m : NodeMember) (p : PlannedMember) : Prop where
  name : p.name = m.name
  key : p.key.memberKey = m.key
  declared : p.declared = m.declared.name
  formatter : p.formatter = match m.formatter with
    | some custom => .custom custom.name
    | none => .ofType

namespace Node

/-- The members of a node that have a number or a name as their key. -/
def keyedMembers (node : Node) : List NodeMember := node.members.filter (·.key.isKeyed)

/-- What planned members by position have to be: the plans of all keyed members of a node, with the
positions as keys, in their order and below the length. -/
structure IsPositioned (node : Node) (length : Nat) (planned : List PlannedMember) : Prop where
  complete : ∃ order, planned.Perm order ∧
    List.Forall₂ NodeMember.IsPlannedAs node.keyedMembers order
  positions : ∃ positions : List Nat, planned.map (·.key) = positions.map (fun n => .int n) ∧
    positions.Pairwise (· < ·) ∧ (∀ n ∈ positions, n < length) ∧
      length = positions.max?.elim 0 (· + 1)
  length_lt : length < 2 ^ 32

/-- What the layout of a node has to be. -/
structure IsLaidOut (mapMode : Bool) (node : Node) (layout : ObjectLayout)
    (planned : List PlannedMember) : Prop where
  keys_iff : layout = .keys ↔
    mapMode = true ∨ ∃ m ∈ node.members, ∃ text, m.key = .string text
  distinct : (planned.map (·.key)).Nodup
  /-- By key, members are in the order of the node. -/
  keyed : layout = .keys → List.Forall₂ NodeMember.IsPlannedAs node.keyedMembers planned
  positioned : ∀ length, layout = .positions length → node.IsPositioned length planned

theorem isMapEncoded_iff {node : Node} {mapMode : Bool} : node.isMapEncoded mapMode = true ↔
    mapMode = true ∨ ∃ m ∈ node.members, ∃ text, m.key = .string text := by
  rw [isMapEncoded, Bool.or_eq_true, List.any_eq_true]
  refine or_congr_right (exists_congr fun m => and_congr_right fun _ => ?_)
  cases m.key <;> simp

end Node

namespace StrategySetting

variable {members : List NodeMember} {planned : List PlannedMember}

/-! ### Plans of members -/

theorem plannedMember?_eq_some_iff {m : NodeMember} {p : PlannedMember} :
    plannedMember? m = some p ↔ m.IsPlannedAs p := by
  obtain ⟨name, key, declared, formatter⟩ := p
  obtain ⟨name', declared', access, key', formatter', origin⟩ := m
  constructor
  · intro h
    cases key' <;> cases formatter' <;> simp [plannedMember?] at h <;>
      obtain ⟨rfl, rfl, rfl, rfl⟩ := h <;> exact ⟨rfl, rfl, rfl, rfl⟩
  · rintro ⟨hname, hkey, hdeclared, hformatter⟩
    dsimp only at *
    subst hname hkey hdeclared hformatter
    cases key <;> cases formatter' <;> rfl

/-- The keyed members of a list are planned one by one. -/
theorem forall₂_isPlannedAs (members : List NodeMember) :
    List.Forall₂ NodeMember.IsPlannedAs (members.filter (·.key.isKeyed))
      (members.filterMap plannedMember?) := by
  induction members with
  | nil => exact .nil
  | cons m rest ih =>
    have hkeyed := isSome_plannedMember? (n := m)
    cases hplanned : plannedMember? m with
    | none =>
      rw [hplanned, Option.isSome_none] at hkeyed
      rw [List.filter_cons_of_neg (by rw [← hkeyed]; exact Bool.false_ne_true),
        List.filterMap_cons_none hplanned]
      exact ih
    | some p =>
      rw [hplanned, Option.isSome_some] at hkeyed
      rw [List.filter_cons_of_pos (by rw [← hkeyed]), List.filterMap_cons_some hplanned]
      exact .cons (plannedMember?_eq_some_iff.mp hplanned) ih

theorem exists_member_of_mem_planned {p : PlannedMember}
    (h : p ∈ members.filterMap plannedMember?) : ∃ m ∈ members, m.IsPlannedAs p := by
  obtain ⟨m, hm, hp⟩ := List.mem_filterMap.mp h
  exact ⟨m, hm, plannedMember?_eq_some_iff.mp hp⟩

/-! ### The number of positions -/

/-- The positions are enough when each key has one. -/
theorem positionCount_le_iff (bound : Nat) : positionCount planned ≤ bound ↔
    ∀ p ∈ planned, ∀ n, p.key = .int n → (n + 1).toNat ≤ bound := by
  rw [positionCount, foldl_le_iff (P := fun p => ∀ n, p.key = .int n → (n + 1).toNat ≤ bound)]
  · exact and_iff_right bound.zero_le
  · intro count p
    cases p.key with
    | int n => simp only [max_le_iff, PlannedKey.int.injEq, forall_eq']
    | string text => simp

/-- There is one position more than the greatest one that is a key, and none without keys. -/
theorem positionCount_eq {positions : List Nat}
    (h : planned.map (·.key) = positions.map (fun n => .int n)) :
    positionCount planned = positions.max?.elim 0 (· + 1) := by
  have hle : ∀ bound, positionCount planned ≤ bound ↔ ∀ n ∈ positions, n < bound := by
    intro bound
    rw [positionCount_le_iff]
    have hkeys : (∀ p ∈ planned, ∀ n, p.key = .int n → (n + 1).toNat ≤ bound) ↔
        ∀ key ∈ planned.map (·.key), ∀ n, key = .int n → (n + 1).toNat ≤ bound := by
      rw [List.forall_mem_map]
    rw [hkeys, h, List.forall_mem_map]
    refine forall₂_congr fun n _ => ?_
    simp only [PlannedKey.int.injEq, forall_eq']
    omega
  cases hmax : positions.max? with
  | none =>
    obtain rfl := List.max?_eq_none_iff.mp hmax
    have hzero := (hle 0).mpr (by simp)
    rw [Option.elim_none]
    omega
  | some greatest =>
    obtain ⟨hmem, hgreatest⟩ := List.max?_eq_some_iff.mp hmax
    have hupper := (hle (greatest + 1)).mpr fun n hn => Nat.lt_succ_of_le (hgreatest n hn)
    have hlower := (hle (positionCount planned)).mp le_rfl greatest hmem
    rw [Option.elim_some]
    omega

end StrategySetting

namespace TypeGraph

variable {mapMode : Bool} {node : Node}

/-! ### Keys that pass the checks -/

theorem uniquenessFindings_eq_nil_iff : uniquenessFindings mapMode node = [] ↔
    (intKeys node).filter (1 < ·.2.length) = [] ∧ (stringKeys node).filter (1 < ·.2.length) = [] ∧
      (node.isMapEncoded mapMode = false → (intKeys node).filter (·.1 < 0) = []) := by
  rw [uniquenessFindings]
  simp only [List.map_eq_nil_iff, List.append_eq_nil_iff, and_assoc]
  cases node.isMapEncoded mapMode <;> simp

/-- Different members have different keys if the checks find none repeated. -/
theorem nodup_keys (h : uniquenessFindings mapMode node = []) :
    ((node.members.filterMap StrategySetting.plannedMember?).map (·.key)).Nodup := by
  obtain ⟨hints, hstrings, -⟩ := uniquenessFindings_eq_nil_iff.mp h
  rw [intKeys, repeatedGroups_eq_nil_iff, List.Nodup, List.pairwise_map,
    List.pairwise_filterMap] at hints
  rw [stringKeys, repeatedGroups_eq_nil_iff, List.Nodup, List.pairwise_map,
    List.pairwise_filterMap] at hstrings
  rw [List.Nodup, List.pairwise_map, List.pairwise_filterMap]
  refine hints.imp₂ (fun m m' hint hstring p hp p' hp' hsame => ?_) hstrings
  have hkey := (StrategySetting.plannedMember?_eq_some_iff.mp hp).key
  have hkey' := (StrategySetting.plannedMember?_eq_some_iff.mp hp').key
  rw [← hsame] at hkey'
  cases hp : p.key with
  | int n =>
    rw [hp, PlannedKey.memberKey] at hkey hkey'
    exact hint (n, m.name) (by rw [← hkey]) (n, m'.name) (by rw [← hkey']) rfl
  | string text =>
    rw [hp, PlannedKey.memberKey] at hkey hkey'
    exact hstring (text, m.name) (by rw [← hkey]) (text, m'.name) (by rw [← hkey']) rfl

/-- No key of an object that is written by position is negative. -/
theorem nonneg_of_key (h : uniquenessFindings mapMode node = [])
    (hpositions : node.isMapEncoded mapMode = false) {m : NodeMember} (hm : m ∈ node.members)
    {n : Int} (hkey : m.key = .int n) : 0 ≤ n := by
  have hnegative := (uniquenessFindings_eq_nil_iff.mp h).2.2 hpositions
  rw [List.filter_eq_nil_iff] at hnegative
  obtain ⟨names, hgroup⟩ : ∃ names, (n, names) ∈ intKeys node :=
    exists_mem_groupByKey (List.mem_filterMap.mpr ⟨m, hm, by rw [hkey]⟩)
  simpa using hnegative _ hgroup

end TypeGraph

namespace Setting

variable {s : Setting} {t : Ty}

theorem isInt32_of_attributeKey? {args : List Argument} {n : Int}
    (h : attributeKey? args = some (.int n)) : IsInt32 n := by
  match args with
  | .int _ :: _ =>
    rw [attributeKey?] at h
    split at h
    · rename_i hrange
      rw [Option.some.injEq, MemberKey.int.injEq] at h
      exact h ▸ hrange
    · simp at h
  | [] | .null :: _ | .string _ :: _ | .bool _ :: _ | .type _ :: _ => simp [attributeKey?] at h

/-- A key that is a number comes from an attribute, which takes no more than 32 bits. -/
theorem isInt32_of_key {m : NodeMember} (hm : m ∈ (s.nodeOf t).members) {n : Int}
    (hkey : m.key = .int n) : IsInt32 n := by
  obtain ⟨-, level, -, member, -, type, key, -, hwritten, rfl⟩ := mem_nodeOf_members_iff.mp hm
  obtain rfl : key = .int n := hkey
  rw [writtenKey?] at hwritten
  split at hwritten
  · simp at hwritten
  · split at hwritten
    · exact isInt32_of_attributeKey? hwritten
    · split at hwritten
      · split at hwritten <;> simp at hwritten
      · simp at hwritten

end Setting

/-! ### Layouts -/

/-- Whether the members of a node are the members to be written of its type and its bases, one by
one, with those of the outermost base first. -/
def Setting.OrdersMembers (s : Setting) (node : Node) : Prop :=
  List.Forall₂ (s.ComesFrom node.kind.keysAsNames) (s.membersToWrite node.self.type) node.members

namespace Setting.Analyzed

open StrategySetting

variable {s : Setting} {a : Analysis} {t : Ty}

theorem IsSoundObject.uniquenessFindings_eq_nil (h : IsSoundObject s a t) :
    TypeGraph.uniquenessFindings s.options.mapMode (s.nodeOf t) = [] := by
  have hfindings := TypeGraph.findingsOf_eq_nil h.node h.sound
  rw [TypeGraph.findingsOf, nodeOf_kind, h.isObject, if_pos rfl] at hfindings
  simp only [List.append_eq_nil_iff] at hfindings
  exact hfindings.1.1.1.1.2

/-- The keys of a sound object that is written by position are positions. -/
theorem IsSoundObject.exists_position (h : IsSoundObject s a t)
    (hpositions : (s.nodeOf t).isMapEncoded s.options.mapMode = false) {p : PlannedMember}
    (hp : p ∈ (s.nodeOf t).members.filterMap plannedMember?) :
    ∃ n : Nat, p.key = .int n ∧ n < 2 ^ 31 := by
  obtain ⟨m, hm, hplan⟩ := exists_member_of_mem_planned hp
  have hkey := hplan.key
  cases hcase : p.key with
  | int n =>
    rw [hcase, PlannedKey.memberKey] at hkey
    have hnonneg := TypeGraph.nonneg_of_key h.uniquenessFindings_eq_nil hpositions hm hkey.symm
    have hlt := (isInt32_of_key hm hkey.symm).2
    exact ⟨n.toNat, by rw [Int.toNat_of_nonneg hnonneg], by omega⟩
  | string text =>
    rw [hcase, PlannedKey.memberKey] at hkey
    have hmap : (s.nodeOf t).isMapEncoded s.options.mapMode = true :=
      Node.isMapEncoded_iff.mpr (.inr ⟨m, hm, text, hkey.symm⟩)
    rw [hpositions] at hmap
    simp at hmap

/-- Sorted by position, the members of a sound object have ascending positions. -/
theorem IsSoundObject.pairwise_lt (h : IsSoundObject s a t)
    (hpositions : (s.nodeOf t).isMapEncoded s.options.mapMode = false) :
    (((s.nodeOf t).members.filterMap plannedMember?).mergeSort fun p q =>
      position p.key ≤ position q.key).Pairwise fun p q => position p.key < position q.key := by
  apply pairwise_lt_mergeSort fun p : PlannedMember => position p.key
  have hdistinct := TypeGraph.nodup_keys h.uniquenessFindings_eq_nil
  have hinjective : ∀ key ∈ ((s.nodeOf t).members.filterMap plannedMember?).map (·.key),
      ∀ key' ∈ ((s.nodeOf t).members.filterMap plannedMember?).map (·.key),
        position key = position key' → key = key' := by
    simp only [List.forall_mem_map]
    intro p hp q hq hsame
    obtain ⟨n, hn, -⟩ := h.exists_position hpositions hp
    obtain ⟨n', hn', -⟩ := h.exists_position hpositions hq
    rw [hn, hn'] at hsame ⊢
    exact congrArg PlannedKey.int hsame
  simpa [List.map_map, Function.comp_def] using hdistinct.map_on hinjective

/-- A sound object that is written by position has its keyed members at their positions. -/
theorem IsSoundObject.isPositioned (h : IsSoundObject s a t)
    (hpositions : (s.nodeOf t).isMapEncoded s.options.mapMode = false)
    {planned : List PlannedMember}
    (hsorted : planned = ((s.nodeOf t).members.filterMap plannedMember?).mergeSort
      fun p q => position p.key ≤ position q.key) :
    (s.nodeOf t).IsPositioned (positionCount planned) planned := by
  have hperm : planned.Perm ((s.nodeOf t).members.filterMap plannedMember?) := by
    rw [hsorted]
    exact List.mergeSort_perm _ _
  have hlt := h.pairwise_lt hpositions
  rw [← hsorted] at hlt
  have hint : ∀ p ∈ planned, p.key = .int (position p.key).toNat ∧ position p.key < 2 ^ 31 := by
    intro p hp
    obtain ⟨n, hn, hbound⟩ := h.exists_position hpositions (hperm.mem_iff.mp hp)
    rw [hn, position, Int.toNat_natCast]
    exact ⟨rfl, by omega⟩
  have hkeys : planned.map (·.key) =
      (planned.map fun p => (position p.key).toNat).map (fun n => .int n) := by
    rw [List.map_map]
    exact List.map_congr_left fun p hp => (hint p hp).1
  have henough := (positionCount_le_iff (positionCount planned)).mp le_rfl
  constructor
  case complete => exact ⟨_, hperm, forall₂_isPlannedAs _⟩
  case positions =>
    refine ⟨_, hkeys, ?_, ?_, positionCount_eq hkeys⟩
    · rw [List.pairwise_map]
      refine hlt.imp_of_mem fun {p q} hp hq hpq => ?_
      have hp' := (hint p hp).1
      have hq' := (hint q hq).1
      rw [hp', hq', position, position] at hpq
      omega
    · rw [List.forall_mem_map]
      intro p hp
      have hcount := henough p hp _ (hint p hp).1
      omega
  case length_lt =>
    have hcount : positionCount planned ≤ 2 ^ 31 := by
      rw [positionCount_le_iff]
      intro p hp n hn
      have hbound := (hint p hp).2
      rw [hn, position] at hbound
      omega
    omega

theorem IsSoundObject.ordersMembers (hwf : s.assembly.WellFormed) (h : IsSoundObject s a t) :
    s.OrdersMembers (s.nodeOf t) := by
  rw [OrdersMembers, nodeOf_kind, nodeOf_self, named_type]
  exact forall₂_nodeOf_members hwf h.isObject h.findings.2.2.2

/-- The layout of a sound object. -/
theorem IsSoundObject.isLaidOut (h : IsSoundObject s a t) {layout : ObjectLayout}
    {planned : List PlannedMember}
    (hstrategy : objectStrategy s.options.mapMode (s.nodeOf t) = .object layout planned) :
    (s.nodeOf t).IsLaidOut s.options.mapMode layout planned := by
  have hdistinct := TypeGraph.nodup_keys h.uniquenessFindings_eq_nil
  have hperm := perm_of_objectStrategy hstrategy
  rw [objectStrategy] at hstrategy
  cases hmap : (s.nodeOf t).isMapEncoded s.options.mapMode with
  | true =>
    rw [hmap, if_pos rfl] at hstrategy
    obtain ⟨rfl, rfl⟩ := Strategy.object.inj hstrategy
    constructor
    case keys_iff => exact iff_of_true rfl (Node.isMapEncoded_iff.mp hmap)
    case distinct => exact hdistinct
    case keyed => exact fun _ => forall₂_isPlannedAs _
    case positioned => simp
  | false =>
    rw [hmap, if_neg Bool.false_ne_true] at hstrategy
    obtain ⟨rfl, hsorted⟩ := Strategy.object.inj hstrategy
    rw [hsorted]
    constructor
    case keys_iff =>
      rw [← Node.isMapEncoded_iff, hmap]
      simp
    case distinct => exact (hperm.map (·.key)).nodup_iff.mpr hdistinct
    case keyed => simp
    case positioned =>
      rintro length hlength
      obtain rfl := ObjectLayout.positions.inj hlength
      exact h.isPositioned hmap hsorted.symm

end Setting.Analyzed

/-- In a loaded assembly a node that is written as an object is laid out, and its members are in
order. -/
theorem Setting.isLaidOut_of_strategyOf? {s : Setting} {documents : List Document}
    (hload : Assembly.load documents = .ok s.assembly) {control : RunControl} {root : Symbol}
    (hroot : root.index < s.assembly.defs.size) {a : Analysis}
    (hanalyze : s.analyze control root = .ok a) {node : Node} (hnode : node ∈ a.graph.nodes)
    {layout : ObjectLayout} {planned : List PlannedMember}
    (hobject : a.strategyOf? node.name = some (.object layout planned)) :
    node.IsLaidOut s.options.mapMode layout planned ∧ s.OrdersMembers node := by
  have h := analyzed_of_analyze hload hroot hanalyze
  obtain ⟨t, keysAsNames, hname, hwritten, hstrategy⟩ := h.writtenAsObject hobject
  have hfound := (TypeGraph.node?_eq_some_iff h.complete.distinct).mpr ⟨hnode, rfl⟩
  rw [← hname] at hfound
  rw [hwritten.eq_node hfound]
  have hsound := hwritten.isSoundObject
  exact ⟨hsound.isLaidOut hstrategy, hsound.ordersMembers h.complete.wellFormed⟩

namespace Setting

/-! ### A gap between positions -/

/-- A class with two members, the later position first and a gap between them. -/
def sparseDocument : Document where
  types := [
    { name := "App.Sparse", kind := .concreteClass,
      attributes := [.bare "MessagePack.MessagePackObjectAttribute"],
      members := [
        { name := "Third", type := some "System.Int32",
          attributes := [.full "MessagePack.KeyAttribute" [.value (.number (.integer 3))]] },
        { name := "First", type := some "System.Int32",
          attributes := [.full "MessagePack.KeyAttribute" [.value (.number (.integer 0))]] }] }]

/-- The class of `sparseDocument` as it is loaded. -/
def sparseDef : TypeDef where
  name := "App.Sparse"
  kind := .concreteClass
  generics := []
  base := none
  underlying := none
  attributes := [⟨⟨90⟩, []⟩]
  members := [
    { name := "Third", kind := .property, type := some (.named ⟨5⟩ []), params := [],
      access := .everyone, isStatic := false, attributes := [⟨⟨91⟩, [.int 3]⟩] },
    { name := "First", kind := .property, type := some (.named ⟨5⟩ []), params := [],
      access := .everyone, isStatic := false, attributes := [⟨⟨91⟩, [.int 0]⟩] }]

/-- The setting of `sparseDocument`, whose class comes right after the prelude. -/
def sparseSetting : Setting := .ofDefs [sparseDef] {}

/-- The class of `sparseDocument` and the type of its members. -/
def sparseGraph : TypeGraph :=
  ⟨#[sparseSetting.nodeOf (.named ⟨96⟩ []), sparseSetting.nodeOf (.named ⟨5⟩ [])]⟩

def sparsePlan : List PlannedMember :=
  [⟨"First", .int 0, .named "System.Int32" [], .ofType⟩,
    ⟨"Third", .int 3, .named "System.Int32" [], .ofType⟩]

theorem loads_sparseDocument : Assembly.load [sparseDocument] = .ok sparseSetting.assembly ∧
    of? sparseSetting.assembly [] {} = some sparseSetting :=
  loads_ofDefs (by decide +kernel) (toOption_eq_some_iff.mp (by decide +kernel)) {}

theorem exists_analyze_sparse : ∃ a, sparseSetting.analyze {} ⟨96⟩ = .ok a ∧
    a.graph = sparseGraph ∧ sparseSetting.nodeOf (.named ⟨96⟩ []) ∈ a.graph.nodes ∧
    a.strategyOf? (sparseSetting.nodeOf (.named ⟨96⟩ [])).name =
      some (.object (.positions 4) sparsePlan) := by
  have hgraph : sparseSetting.graphOf {} ⟨96⟩ = .ok sparseGraph :=
    TypeGraph.graphOf_eq_ok rfl (by decide +kernel)
  have hplan : StrategySetting.objectStrategy sparseSetting.options.mapMode
      (sparseSetting.nodeOf (.named ⟨96⟩ [])) = .object (.positions 4) sparsePlan := by
    have hmembers : (sparseSetting.nodeOf (.named ⟨96⟩ [])).members.filterMap
        StrategySetting.plannedMember? = sparsePlan.reverse := by decide +kernel
    have hpositions : (sparseSetting.nodeOf (.named ⟨96⟩ [])).isMapEncoded
        sparseSetting.options.mapMode = false := by decide +kernel
    have hsorted : (sparsePlan.reverse.mergeSort fun p q =>
        StrategySetting.position p.key ≤ StrategySetting.position q.key) = sparsePlan := by
      simp [sparsePlan, List.mergeSort, StrategySetting.position]
    rw [StrategySetting.objectStrategy, hmembers, hsorted, hpositions]
    rfl
  have hkind : sparseSetting.kindOf (.named ⟨96⟩ []) = .object false false := by decide +kernel
  rw [← hplan]
  exact exists_analyze_object loads_sparseDocument.1 (by decide +kernel) hgraph (by decide +kernel)
    (by decide +kernel) hkind (by decide +kernel)

theorem sparse_isLaidOut : Assembly.load [sparseDocument] = .ok sparseSetting.assembly ∧
    96 < sparseSetting.assembly.defs.size ∧ ∃ a, sparseSetting.analyze {} ⟨96⟩ = .ok a ∧
      sparseSetting.nodeOf (.named ⟨96⟩ []) ∈ a.graph.nodes ∧
      a.strategyOf? (sparseSetting.nodeOf (.named ⟨96⟩ [])).name =
        some (.object (.positions 4) sparsePlan) ∧
      (sparseSetting.nodeOf (.named ⟨96⟩ [])).IsLaidOut false (.positions 4) sparsePlan ∧
      sparseSetting.OrdersMembers (sparseSetting.nodeOf (.named ⟨96⟩ [])) := by
  obtain ⟨a, hanalyze, -, hnode, hobject⟩ := exists_analyze_sparse
  have hsize : 96 < sparseSetting.assembly.defs.size := by decide +kernel
  exact ⟨loads_sparseDocument.1, hsize, a, hanalyze, hnode, hobject,
    isLaidOut_of_strategyOf? loads_sparseDocument.1 hsize hanalyze hnode hobject⟩

end Setting

end FormatterPlan
