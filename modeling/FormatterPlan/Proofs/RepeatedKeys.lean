import FormatterPlan.Proofs.Layouts

/-! Keys that members of an object share.  The checks group the members of an object, inherited
ones among them, by their integer keys and by their string keys.  What they report are the groups of
more than one member, and the negative keys of an object that is written by position.  A group is
reported once, however many members it has, and an integer key is never in a group with the string
of its digits. -/

namespace FormatterPlan

namespace Node

/-- The names of the members that hold a key, in the order of the node. -/
def holders (node : Node) (key : MemberKey) : List String :=
  (node.members.filter (·.key = key)).map (·.name)

/-- Whether keys are in the order in which the members of a node first use them. -/
def InOrderOfUse (node : Node) (keys : List MemberKey) : Prop :=
  keys.Pairwise fun a b => node.members.findIdx (·.key = a) < node.members.findIdx (·.key = b)

/-- What has to be reported on the keys of a node: the integers and the strings that several members
hold, and the negative integers if the node is written by position, each once and in the order of
their first use. -/
structure IsKeyReport (mapMode : Bool) (node : Node) (ints : List Int) (strings : List String)
    (negatives : List Int) : Prop where
  mem_ints_iff : ∀ n, n ∈ ints ↔ 1 < (node.holders (.int n)).length
  mem_strings_iff : ∀ text, text ∈ strings ↔ 1 < (node.holders (.string text)).length
  mem_negatives_iff : ∀ n, n ∈ negatives ↔
    node.isMapEncoded mapMode = false ∧ n < 0 ∧ 0 < (node.holders (.int n)).length
  ints_inOrder : node.InOrderOfUse (ints.map .int)
  strings_inOrder : node.InOrderOfUse (strings.map .string)
  negatives_inOrder : node.InOrderOfUse (negatives.map .int)

/-- The flaws of reported keys: first the integers that several members hold, then the strings, then
the negative integers, each with the names of all members that hold it. -/
def keyFlaws (node : Node) (ints : List Int) (strings : List String) (negatives : List Int) :
    List Flaw :=
  ints.map (fun n => .repeatedIntKey node.name n (node.holders (.int n))) ++
    strings.map (fun text => .repeatedStringKey node.name text (node.holders (.string text))) ++
    negatives.map fun n => .negativeKey node.name n (node.holders (.int n))

end Node

/-! ### The groups of one form of keys -/

/-- Whether `pick` gives the key and the name of the members whose keys are of one form. -/
structure PicksKeys {κ : Type} (form : κ → MemberKey) (pick : NodeMember → Option (κ × String)) :
    Prop where
  injective : Function.Injective form
  pick_iff : ∀ m key name, pick m = some (key, name) ↔ m.key = form key ∧ m.name = name

namespace PicksKeys

variable {κ : Type} [DecidableEq κ] {form : κ → MemberKey}
  {pick : NodeMember → Option (κ × String)}

omit [DecidableEq κ] in
/-- A member that is not picked has a key of another form. -/
theorem key_ne (h : PicksKeys form pick) {m : NodeMember} (hnone : pick m = none) (key : κ) :
    m.key ≠ form key := by
  intro hkey
  have hsome := (h.pick_iff m key m.name).mpr ⟨hkey, rfl⟩
  rw [hnone] at hsome
  cases hsome

/-- The names under a key are those of all members that hold it. -/
theorem names_eq (h : PicksKeys form pick) (members : List NodeMember) (key : κ) :
    ((members.filterMap pick).filter (·.1 = key)).map (·.2) =
      (members.filter (·.key = form key)).map (·.name) := by
  induction members with
  | nil => rfl
  | cons m rest ih =>
    cases hpick : pick m with
    | none =>
      have hne := h.key_ne hpick key
      rw [List.filterMap_cons_none hpick, List.filter_cons_of_neg (by simpa using hne), ih]
    | some pair =>
      obtain ⟨own, name⟩ := pair
      obtain ⟨hkey, rfl⟩ := (h.pick_iff m own name).mp hpick
      rw [List.filterMap_cons_some hpick]
      by_cases hsame : own = key
      · subst hsame
        rw [List.filter_cons_of_pos (by simp), List.filter_cons_of_pos (by simpa using hkey),
          List.map_cons, List.map_cons, ih]
      · have hother : m.key ≠ form key := fun heq => hsame (h.injective (hkey.symm.trans heq))
        rw [List.filter_cons_of_neg (by simpa using hsame),
          List.filter_cons_of_neg (by simpa using hother), ih]

/-- The different keys of a form, in the order of their first use. -/
def keys (pick : NodeMember → Option (κ × String)) (members : List NodeMember) : List κ :=
  ((members.filterMap pick).map (·.1)).eraseDups

theorem mem_keys_iff (h : PicksKeys form pick) {members : List NodeMember} {key : κ} :
    key ∈ keys pick members ↔ ∃ m ∈ members, m.key = form key := by
  rw [keys, List.mem_eraseDups, List.mem_map]
  constructor
  · rintro ⟨⟨own, name⟩, hpair, rfl⟩
    obtain ⟨m, hm, hpick⟩ := List.mem_filterMap.mp hpair
    exact ⟨m, hm, ((h.pick_iff m own name).mp hpick).1⟩
  · rintro ⟨m, hm, hkey⟩
    exact ⟨(key, m.name), List.mem_filterMap.mpr ⟨m, hm, (h.pick_iff m key _).mpr ⟨hkey, rfl⟩⟩, rfl⟩

/-- Different keys come in the order in which members first use them. -/
theorem keys_inOrder (h : PicksKeys form pick) (members : List NodeMember) :
    (keys pick members).Pairwise fun a b =>
      members.findIdx (·.key = form a) < members.findIdx (·.key = form b) := by
  induction members with
  | nil => exact .nil
  | cons m rest ih =>
    cases hpick : pick m with
    | none =>
      rw [keys, List.filterMap_cons_none hpick]
      refine ih.imp fun {a b} hlt => ?_
      rw [List.findIdx_cons, List.findIdx_cons, decide_eq_false (h.key_ne hpick a),
        decide_eq_false (h.key_ne hpick b)]
      exact Nat.succ_lt_succ hlt
    | some pair =>
      obtain ⟨own, name⟩ := pair
      have hkey := ((h.pick_iff m own name).mp hpick).1
      -- The key of the first member comes first, and all others are looked for behind it.
      have hother : ∀ {key : κ}, key ≠ own → decide (m.key = form key) = false := fun hne =>
        decide_eq_false fun heq => hne (h.injective (heq.symm.trans hkey))
      rw [keys, List.filterMap_cons_some hpick, List.map_cons, List.eraseDups_cons,
        eraseDups_filter, List.pairwise_cons]
      constructor
      · intro key hmem
        have hne : key ≠ own := by simpa using (List.mem_filter.mp hmem).2
        rw [List.findIdx_cons, List.findIdx_cons, decide_eq_true hkey, hother hne]
        exact Nat.succ_pos _
      · refine (ih.filter _).imp_of_mem fun {a b} ha hb hlt => ?_
        have hane : a ≠ own := by simpa using (List.mem_filter.mp ha).2
        have hbne : b ≠ own := by simpa using (List.mem_filter.mp hb).2
        rw [List.findIdx_cons, List.findIdx_cons, hother hane, hother hbne]
        exact Nat.succ_lt_succ hlt

/-- The groups that satisfy a condition are those of the keys whose holders do. -/
theorem filter_groupByKey (h : PicksKeys form pick) (node : Node) (p : κ × List String → Bool) :
    (groupByKey (node.members.filterMap pick)).filter p =
      ((keys pick node.members).filter fun key => p (key, node.holders (form key))).map
        fun key => (key, node.holders (form key)) := by
  rw [groupByKey, List.filter_map]
  simp only [Function.comp_def, h.names_eq, Node.holders, keys]

theorem holders_pos_iff {node : Node} {key : MemberKey} :
    0 < (node.holders key).length ↔ ∃ m ∈ node.members, m.key = key := by
  rw [Node.holders, List.length_map, List.length_pos_iff_exists_mem]
  simp only [List.mem_filter, decide_eq_true_eq]

end PicksKeys

def NodeMember.intKey? (m : NodeMember) : Option (Int × String) :=
  match m.key with
  | .int n => some (n, m.name)
  | _ => none

def NodeMember.stringKey? (m : NodeMember) : Option (String × String) :=
  match m.key with
  | .string s => some (s, m.name)
  | _ => none

theorem picksKeys_intKey? : PicksKeys .int NodeMember.intKey? where
  injective _ _ := MemberKey.int.inj
  pick_iff m key name := by
    cases hkey : m.key <;> simp [NodeMember.intKey?, hkey]

theorem picksKeys_stringKey? : PicksKeys .string NodeMember.stringKey? where
  injective _ _ := MemberKey.string.inj
  pick_iff m key name := by
    cases hkey : m.key <;> simp [NodeMember.stringKey?, hkey]

/-! ### The report -/

namespace PicksKeys

variable {κ : Type} [DecidableEq κ] {form : κ → MemberKey}
  {pick : NodeMember → Option (κ × String)}

theorem inOrderOfUse (h : PicksKeys form pick) (node : Node) (p : κ → Bool) :
    node.InOrderOfUse (((keys pick node.members).filter p).map form) := by
  rw [Node.InOrderOfUse, List.pairwise_map]
  exact (h.keys_inOrder node.members).filter p

theorem mem_filter_keys_iff (h : PicksKeys form pick) {node : Node} {p : κ → Bool} {key : κ} :
    key ∈ (keys pick node.members).filter p ↔
      0 < (node.holders (form key)).length ∧ p key = true := by
  rw [List.mem_filter, h.mem_keys_iff, holders_pos_iff]

/-- The keys with several holders. -/
theorem mem_repeated_iff (h : PicksKeys form pick) {node : Node} {key : κ} :
    key ∈ (keys pick node.members).filter (fun key => 1 < (node.holders (form key)).length) ↔
      1 < (node.holders (form key)).length := by
  rw [h.mem_filter_keys_iff, decide_eq_true_eq]
  omega

end PicksKeys

namespace TypeGraph

/-- The findings on the keys of a node are those of its report. -/
theorem exists_isKeyReport (mapMode : Bool) (node : Node) :
    ∃ ints strings negatives, node.IsKeyReport mapMode ints strings negatives ∧
      uniquenessFindings mapMode node =
        (node.keyFlaws ints strings negatives).map (Flaw.finding node.name none) := by
  have hints : intKeys node = groupByKey (node.members.filterMap NodeMember.intKey?) := rfl
  have hstrings : stringKeys node = groupByKey (node.members.filterMap NodeMember.stringKey?) := rfl
  let used := PicksKeys.keys NodeMember.intKey? node.members
  refine ⟨used.filter fun n => 1 < (node.holders (.int n)).length,
    (PicksKeys.keys NodeMember.stringKey? node.members).filter
      fun text => 1 < (node.holders (.string text)).length,
    used.filter fun n => !node.isMapEncoded mapMode && n < 0, ?_, ?_⟩
  · exact {
      mem_ints_iff := fun n => picksKeys_intKey?.mem_repeated_iff
      mem_strings_iff := fun text => picksKeys_stringKey?.mem_repeated_iff
      mem_negatives_iff := fun n => by
        rw [picksKeys_intKey?.mem_filter_keys_iff, Bool.and_eq_true, Bool.not_eq_true',
          decide_eq_true_eq]
        tauto
      ints_inOrder := picksKeys_intKey?.inOrderOfUse node _
      strings_inOrder := picksKeys_stringKey?.inOrderOfUse node _
      negatives_inOrder := picksKeys_intKey?.inOrderOfUse node _ }
  · have hnegative : (if node.isMapEncoded mapMode then [] else (intKeys node).filter (·.1 < 0)) =
        (used.filter fun n => !node.isMapEncoded mapMode && n < 0).map
          fun n => (n, node.holders (.int n)) := by
      cases node.isMapEncoded mapMode with
      | true => simp
      | false => simpa [hints] using picksKeys_intKey?.filter_groupByKey node fun g => g.1 < 0
    rw [uniquenessFindings, hnegative, hints, hstrings, picksKeys_intKey?.filter_groupByKey,
      picksKeys_stringKey?.filter_groupByKey, Node.keyFlaws]
    simp only [List.map_map, Function.comp_def, used]

/-- The keys of a node are different when none has several holders. -/
theorem nodup_keyedMembers_iff {node : Node} : (node.keyedMembers.map (·.key)).Nodup ↔
    (∀ n, (node.holders (.int n)).length ≤ 1) ∧
      ∀ text, (node.holders (.string text)).length ≤ 1 := by
  have hcount : ∀ key : MemberKey, key.isKeyed = true →
      (node.keyedMembers.map (·.key)).count key = (node.holders key).length := by
    intro key hkeyed
    rw [List.count, List.countP_map, List.countP_eq_length_filter, Node.keyedMembers,
      List.filter_filter, Node.holders, List.length_map]
    congr 1
    refine List.filter_congr fun m _ => ?_
    by_cases hkey : m.key = key
    · simp [hkey, hkeyed]
    · simp [hkey]
  rw [List.nodup_iff_count_le_one]
  constructor
  · intro h
    exact ⟨fun n => hcount (.int n) rfl ▸ h _, fun text => hcount (.string text) rfl ▸ h _⟩
  · rintro ⟨hints, hstrings⟩ key
    by_cases hkeyed : key.isKeyed = true
    · rw [hcount key hkeyed]
      cases key with
      | int n => exact hints n
      | string text => exact hstrings text
      | null => cases hkeyed
      | unattributed => cases hkeyed
    · rw [List.count_eq_zero_of_not_mem]
      · exact Nat.zero_le 1
      · intro hmem
        obtain ⟨m, hm, rfl⟩ := List.mem_map.mp hmem
        exact hkeyed (List.mem_filter.mp hm).2

/-- No key is reported as repeated exactly when the keys of the node are different. -/
theorem nodup_iff_of_isKeyReport {mapMode : Bool} {node : Node} {ints : List Int}
    {strings : List String} {negatives : List Int}
    (h : node.IsKeyReport mapMode ints strings negatives) :
    (node.keyedMembers.map (·.key)).Nodup ↔ ints = [] ∧ strings = [] := by
  rw [nodup_keyedMembers_iff, List.eq_nil_iff_forall_not_mem, List.eq_nil_iff_forall_not_mem]
  simp only [h.mem_ints_iff, h.mem_strings_iff, not_lt]

/-- In the graph of a root of a loaded assembly, the members of an object are those of all its
levels, and the checks report on their keys exactly what has to be reported. -/
theorem uniquenessFindings_of_graphOf {documents : List Document} {s : Setting}
    (hload : Assembly.load documents = .ok s.assembly) {control : RunControl} {root : Symbol}
    (hroot : root.index < s.assembly.defs.size) {graph : TypeGraph}
    (hgraph : s.graphOf control root = .ok graph) {node : Node} (hnode : node ∈ graph.nodes)
    (hobject : node.kind.isObject = true) (mapMode : Bool) :
    node.members = ((s.levelsOf node.self.type).reverse.flatMap fun level =>
        (s.membersOf node.kind.keysAsNames level).1) ∧
      uniquenessFindings mapMode node <:+: graph.findingsOf s.assembly mapMode node ∧
      ∃ ints strings negatives, node.IsKeyReport mapMode ints strings negatives ∧
        ((node.keyedMembers.map (·.key)).Nodup ↔ ints = [] ∧ strings = []) ∧
        uniquenessFindings mapMode node =
          (node.keyFlaws ints strings negatives).map (Flaw.finding node.name none) := by
  have hg := complete_of_graphOf (Assembly.wellFormed_of_load hload) hroot hgraph
  obtain ⟨t, -, rfl⟩ := hg.made node hnode
  refine ⟨?_, ?_, ?_⟩
  · rw [Setting.nodeOf_kind] at hobject
    rw [Setting.nodeOf_members, if_pos hobject, Setting.nodeOf_kind, Setting.nodeOf_self,
      Setting.named_type]
  · rw [findingsOf, if_pos hobject, List.append_assoc, List.append_assoc]
    exact (List.infix_append _ _ _).trans (List.prefix_append _ _).isInfix
  · obtain ⟨ints, strings, negatives, hreport, hfindings⟩ := exists_isKeyReport mapMode (s.nodeOf t)
    exact ⟨ints, strings, negatives, hreport, nodup_iff_of_isKeyReport hreport, hfindings⟩

/-! ### A key on two levels -/

/-- A class that takes a position of its base again, and uses a negative one twice itself. -/
def crowdedDocument : Document where
  types := [
    { name := "App.Base", kind := .concreteClass,
      attributes := [.bare "MessagePack.MessagePackObjectAttribute"],
      members := [
        { name := "First", type := some "System.Int32",
          attributes := [.full "MessagePack.KeyAttribute" [.value (.number (.integer 0))]] }] },
    { name := "App.Crowded", kind := .concreteClass, base := some "App.Base",
      attributes := [.bare "MessagePack.MessagePackObjectAttribute"],
      members := [
        { name := "Left", type := some "System.Int32",
          attributes := [.full "MessagePack.KeyAttribute" [.value (.number (.integer (-1)))]] },
        { name := "Second", type := some "System.Int32",
          attributes := [.full "MessagePack.KeyAttribute" [.value (.number (.integer 0))]] },
        { name := "Right", type := some "System.Int32",
          attributes := [.full "MessagePack.KeyAttribute" [.value (.number (.integer (-1)))]] }] }]

/-- A property with an integer for its type and a key. -/
def numberMember (name : String) (key : Int) : Member where
  name := name
  kind := .property
  type := some (.named ⟨5⟩ [])
  params := []
  access := .everyone
  isStatic := false
  attributes := [⟨⟨91⟩, [.int key]⟩]

def crowdedDefs : List TypeDef := [
  { name := "App.Base", kind := .concreteClass, generics := [], base := none, underlying := none,
    attributes := [⟨⟨90⟩, []⟩], members := [numberMember "First" 0] },
  { name := "App.Crowded", kind := .concreteClass, generics := [], base := some (.named ⟨96⟩ []),
    underlying := none, attributes := [⟨⟨90⟩, []⟩],
    members := [numberMember "Left" (-1), numberMember "Second" 0, numberMember "Right" (-1)] }]

def crowdedSetting : Setting := .ofDefs crowdedDefs {}

def crowdedNode : Node := crowdedSetting.nodeOf (.named ⟨97⟩ [])

/-- The derived class of `crowdedDocument`, its base and the type of their members. -/
def crowdedGraph : TypeGraph :=
  ⟨#[crowdedNode, crowdedSetting.nodeOf (.named ⟨96⟩ []), crowdedSetting.nodeOf (.named ⟨5⟩ [])]⟩

theorem loads_crowdedDocument : Assembly.load [crowdedDocument] = .ok crowdedSetting.assembly ∧
    Setting.of? crowdedSetting.assembly [] {} = some crowdedSetting :=
  Setting.loads_ofDefs (by decide +kernel) (toOption_eq_some_iff.mp (by decide +kernel)) {}

/-- On the derived class both positions are reported as repeated, and the negative one once more. -/
theorem uniquenessFindings_crowded : Assembly.load [crowdedDocument] = .ok crowdedSetting.assembly ∧
    97 < crowdedSetting.assembly.defs.size ∧ crowdedSetting.graphOf {} ⟨97⟩ = .ok crowdedGraph ∧
    crowdedNode ∈ crowdedGraph.nodes ∧ crowdedNode.kind.isObject = true ∧
    (uniquenessFindings false crowdedNode).map (·.args) =
      [["App.Crowded has duplicate key 0 on members First, Second"],
        ["App.Crowded has duplicate key -1 on members Left, Right"],
        ["App.Crowded has negative key -1 on members Left, Right, which has no array position"]] ∧
    ∃ ints strings negatives, crowdedNode.IsKeyReport false ints strings negatives ∧
      uniquenessFindings false crowdedNode =
        (crowdedNode.keyFlaws ints strings negatives).map (Flaw.finding crowdedNode.name none) := by
  have hgraph : crowdedSetting.graphOf {} ⟨97⟩ = .ok crowdedGraph :=
    graphOf_eq_ok rfl (by decide +kernel)
  have hsize : 97 < crowdedSetting.assembly.defs.size := by decide +kernel
  have hnode : crowdedNode ∈ crowdedGraph.nodes := Array.mem_iff_getElem?.mpr ⟨0, rfl⟩
  have hobject : crowdedNode.kind.isObject = true := by decide +kernel
  obtain ⟨-, -, ints, strings, negatives, hreport, -, hfindings⟩ :=
    uniquenessFindings_of_graphOf loads_crowdedDocument.1 hsize hgraph hnode hobject false
  exact ⟨loads_crowdedDocument.1, hsize, hgraph, hnode, hobject, by decide +kernel, ints, strings,
    negatives, hreport, hfindings⟩

end TypeGraph

end FormatterPlan
