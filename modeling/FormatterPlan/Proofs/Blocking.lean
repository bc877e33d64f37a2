import FormatterPlan.Proofs.CompleteGraph
import Mathlib.Logic.Relation

/-! Which nodes are blocked.  `TypeGraph.Blocked` says it without lists and rounds: a node with a
finding, an object with a blocked base, and an object with a member that is written with a blocked
type.  The verdict on a graph blocks exactly these, so a node that it does not block has no finding
and depends on none that has. -/

namespace FormatterPlan

namespace TypeGraph

/-- Whether a type passes its value on to another one: it names no formatter, and the other is a
part of it. -/
def Passes (graph : TypeGraph) (a b : TypeName) : Prop :=
  ∃ node, graph.node? a = some node ∧ node.formatter = none ∧ b ∈ passedOn node

/-- Whether a type is passed on to by way of several. -/
abbrev PassesOnTo (graph : TypeGraph) : TypeName → TypeName → Prop :=
  Relation.ReflTransGen graph.Passes

/-- The types that get no formatter because of a finding. -/
inductive Blocked (asm : Assembly) (mapMode : Bool) (graph : TypeGraph) : TypeName → Prop
  | finding {name : TypeName} {node : Node} (hnode : graph.node? name = some node)
      (hfinding : graph.findingsOf asm mapMode node ≠ []) : Blocked asm mapMode graph name
  | base {name : TypeName} {node : Node} {base : NamedType} (hnode : graph.node? name = some node)
      (hobject : node.kind.isObject = true) (hbase : base ∈ node.bases)
      (hblocked : Blocked asm mapMode graph base.name) : Blocked asm mapMode graph name
  | member {name target : TypeName} {node : Node} {m : NodeMember}
      (hnode : graph.node? name = some node) (hobject : node.kind.isObject = true)
      (hm : m ∈ node.members) (hformatter : m.formatter = none)
      (hclosed : m.declared.type.isClosed = true)
      (hpasses : graph.PassesOnTo m.declared.name target)
      (hblocked : Blocked asm mapMode graph target) : Blocked asm mapMode graph name

variable {graph : TypeGraph} {blocked : List TypeName}

/-! ### The search for a blocked type -/

/-- The types that a type passes its value on to, as the search goes on to them. -/
def nextOf (graph : TypeGraph) (name : TypeName) : List TypeName :=
  match graph.node? name with
  | some node => if node.formatter.isSome then [] else passedOn node
  | none => []

theorem mem_nextOf_iff {a b : TypeName} : b ∈ graph.nextOf a ↔ graph.Passes a b := by
  unfold nextOf Passes
  cases graph.node? a with
  | none => simp
  | some node => cases hformatter : node.formatter <;> simp [hformatter]

theorem mem_names_of_passes {a b : TypeName} (h : graph.Passes a b) : a ∈ graph.names := by
  obtain ⟨node, hnode, -⟩ := h
  exact mem_names_of_node? hnode

theorem Complete.mem_names_of_mem_passedOn {s : Setting} (hg : Complete s graph) {node : Node}
    (hnode : node ∈ graph.nodes) {part : TypeName} (hpart : part ∈ passedOn node) :
    part ∈ graph.names := by
  have hrefs : ∃ r ∈ node.refs, r.name = part := by
    unfold passedOn at hpart
    split at hpart
    · obtain ⟨r, hr, rfl⟩ := List.mem_map.mp hpart
      exact ⟨r, Node.mem_refs_of_mem_elements hr, rfl⟩
    · obtain ⟨v, hv, rfl⟩ := List.mem_map.mp hpart
      exact ⟨v.type, Node.mem_refs_of_mem_variants hv, rfl⟩
    · simp at hpart
  obtain ⟨r, hr, rfl⟩ := hrefs
  exact hg.closed node hnode r hr

theorem blockedTarget_cons (unvisited : List TypeName) (name : TypeName) (pending : List TypeName) :
    graph.blockedTarget blocked unvisited (name :: pending) =
      if blocked.contains name then some name
      else if name ∈ unvisited then
        graph.blockedTarget blocked (unvisited.erase name) (graph.nextOf name ++ pending)
      else graph.blockedTarget blocked unvisited pending := by
  rw [blockedTarget]
  rfl

/-- Whether a type is blocked, and another one passes its value on to it by way of types that are
not blocked. -/
structure LeadsToBlocked (graph : TypeGraph) (blocked : List TypeName) (name target : TypeName) :
    Prop where
  isTarget : target ∈ blocked
  passes : Relation.ReflTransGen (fun a b => a ∉ blocked ∧ graph.Passes a b) name target

/-- What the search finds is blocked, and one of the types leads to it. -/
theorem blockedTarget_eq_some {unvisited pending : List TypeName} {target : TypeName}
    (h : graph.blockedTarget blocked unvisited pending = some target) :
    ∃ name ∈ pending, graph.LeadsToBlocked blocked name target := by
  induction unvisited, pending using blockedTarget.induct graph blocked with
  | case1 unvisited => simp [blockedTarget] at h
  | case2 unvisited name pending hblocked =>
    rw [blockedTarget_cons, if_pos hblocked, Option.some.injEq] at h
    subst h
    exact ⟨name, List.mem_cons_self, by simpa using hblocked, .refl⟩
  | case3 unvisited name pending hblocked hnew next ih =>
    rw [blockedTarget_cons, if_neg hblocked, if_pos hnew] at h
    obtain ⟨start, hstart, htarget, hpasses⟩ := ih h
    rcases List.mem_append.mp hstart with hnext | hpending
    · have hfirst : name ∉ blocked ∧ graph.Passes name start :=
        ⟨by simpa using hblocked, mem_nextOf_iff.mp hnext⟩
      exact ⟨name, List.mem_cons_self, htarget, .head hfirst hpasses⟩
    · exact ⟨start, List.mem_cons_of_mem _ hpending, htarget, hpasses⟩
  | case4 unvisited name pending hblocked hold ih =>
    rw [blockedTarget_cons, if_neg hblocked, if_neg hold] at h
    obtain ⟨start, hstart, hleads⟩ := ih h
    exact ⟨start, List.mem_cons_of_mem _ hstart, hleads⟩

/-- The types that a search goes through without finding a blocked one: they contain those that it
starts from and, but for those visited before, are closed under passing on. -/
structure Searched (graph : TypeGraph) (blocked unvisited pending : List TypeName)
    (seen : TypeName → Prop) : Prop where
  started : ∀ name ∈ pending, seen name
  sound : ∀ name, seen name → name ∉ blocked
  closed : ∀ a b, seen a → a ∈ unvisited → graph.Passes a b → seen b

/-- One more type that a search goes through, before those that it goes on to. -/
theorem Searched.add {unvisited later pending next : List TypeName} {seen : TypeName → Prop}
    (h : graph.Searched blocked later next seen) {name : TypeName} (hsound : name ∉ blocked)
    (hpending : ∀ other ∈ pending, other ∈ next)
    (hlater : ∀ other ∈ unvisited, other ≠ name → other ∈ later)
    (hnext : name ∈ unvisited → ∀ b, graph.Passes name b → b ∈ next) :
    graph.Searched blocked unvisited (name :: pending) fun other => other = name ∨ seen other where
  started other hother := by
    rcases List.mem_cons.mp hother with rfl | hother
    · exact .inl rfl
    · exact .inr (h.started other (hpending other hother))
  sound := by
    rintro other (rfl | hother)
    · exact hsound
    · exact h.sound other hother
  closed a b ha hunvisited hpasses := by
    by_cases hname : a = name
    · subst hname
      exact .inr (h.started b (hnext hunvisited b hpasses))
    · exact .inr (h.closed a b (ha.resolve_left hname) (hlater a hunvisited hname) hpasses)

theorem exists_searched {unvisited pending : List TypeName}
    (h : graph.blockedTarget blocked unvisited pending = none) :
    ∃ seen, graph.Searched blocked unvisited pending seen := by
  induction unvisited, pending using blockedTarget.induct graph blocked with
  | case1 unvisited => exact ⟨fun _ => False, by simp, by simp, by simp⟩
  | case2 unvisited name pending hblocked =>
    rw [blockedTarget_cons, if_pos hblocked] at h
    simp at h
  | case3 unvisited name pending hblocked hnew next ih =>
    rw [blockedTarget_cons, if_neg hblocked, if_pos hnew] at h
    obtain ⟨seen, hseen⟩ := ih h
    exact ⟨_, hseen.add (by simpa using hblocked)
      (fun other hother => List.mem_append_right _ hother)
      (fun other hother hne => (List.mem_erase_of_ne hne).mpr hother)
      (fun _ b hpasses => List.mem_append_left _ (mem_nextOf_iff.mpr hpasses))⟩
  | case4 unvisited name pending hblocked hold ih =>
    rw [blockedTarget_cons, if_neg hblocked, if_neg hold] at h
    obtain ⟨seen, hseen⟩ := ih h
    exact ⟨_, hseen.add (by simpa using hblocked) (fun _ hother => hother)
      (fun _ hother _ => hother) (fun hname => (hold hname).elim)⟩

/-- The search from a type finds nothing when the type passes its value on to no blocked type. -/
theorem blockedTarget_eq_none_iff {name : TypeName} :
    graph.blockedTarget blocked graph.names [name] = none ↔
      ∀ target, graph.PassesOnTo name target → target ∉ blocked := by
  constructor
  · intro h
    obtain ⟨seen, hseen⟩ := exists_searched h
    intro target hpasses
    refine hseen.sound target ?_
    induction hpasses with
    | refl => exact hseen.started name List.mem_cons_self
    | tail _ hlast ih => exact hseen.closed _ _ ih (mem_names_of_passes hlast) hlast
  · intro h
    cases hfound : graph.blockedTarget blocked graph.names [name] with
    | none => rfl
    | some target =>
      obtain ⟨start, hstart, htarget, hpasses⟩ := blockedTarget_eq_some hfound
      obtain rfl := List.mem_singleton.mp hstart
      exact (h target (.mono (fun _ _ hstep => hstep.2) _ _ hpasses) htarget).elim

/-! ### Rounds -/

/-- Whether a node depends on a type with a property: through a base, or through a member that is
written with it. -/
def DependsOn (graph : TypeGraph) (P : TypeName → Prop) (node : Node) : Prop :=
  node.kind.isObject = true ∧
    ((∃ base ∈ node.bases, P base.name) ∨
      ∃ m ∈ node.members, m.formatter = none ∧ m.declared.type.isClosed = true ∧
        ∃ target, graph.PassesOnTo m.declared.name target ∧ P target)

theorem blockedReferences_eq_nil_iff {node : Node} :
    graph.blockedReferences blocked node = [] ↔ ¬ graph.DependsOn (· ∈ blocked) node := by
  unfold blockedReferences DependsOn
  cases node.kind.isObject with
  | false => simp
  | true =>
    simp only [Bool.not_true, Bool.false_eq_true, if_false, List.append_eq_nil_iff,
      List.map_eq_nil_iff, List.filter_eq_nil_iff, List.filterMap_eq_nil_iff,
      Option.map_eq_none_iff, blockedTarget_eq_none_iff, List.mem_map, List.mem_filter]
    simp only [List.contains_iff_mem, forall_exists_index, and_imp, forall_apply_eq_imp_iff₂,
      Bool.and_eq_true, Option.isNone_iff_eq_none, true_and, not_or, not_exists, not_and]

theorem isIndependent_iff {name : TypeName} {node : Node} (h : graph.node? name = some node) :
    graph.isIndependent blocked name = true ↔ ¬ graph.DependsOn (· ∈ blocked) node := by
  rw [isIndependent, h, Option.all_some, List.isEmpty_iff, blockedReferences_eq_nil_iff]

theorem mem_namesOutside_iff {names : List TypeName} {name : TypeName} :
    name ∈ graph.namesOutside names ↔ name ∈ graph.names ∧ name ∉ names := by
  simp [namesOutside]

/-- The types that one round keeps. -/
def keep (graph : TypeGraph) (sound : List TypeName) : List TypeName :=
  sound.filter (graph.isIndependent (graph.namesOutside sound))

theorem settle_eq (sound : List TypeName) :
    graph.settle sound =
      if (graph.keep sound).length < sound.length then graph.settle (graph.keep sound)
      else sound := by
  rw [settle]
  rfl

/-- What each round keeps true is true of what is left in the end, and what is left depends on
nothing outside. -/
theorem settle_invariant {P : List TypeName → Prop}
    (hround : ∀ sound, P sound → P (graph.keep sound)) {sound : List TypeName} (h : P sound) :
    P (graph.settle sound) ∧
      ∀ name ∈ graph.settle sound,
        graph.isIndependent (graph.namesOutside (graph.settle sound)) name = true := by
  induction sound using WellFounded.induction (measure List.length).wf with
  | _ sound ih =>
    rw [settle_eq sound]
    by_cases hshorter : (graph.keep sound).length < sound.length
    · rw [if_pos hshorter]
      exact ih _ hshorter (hround sound h)
    · rw [if_neg hshorter]
      have hlength : (graph.keep sound).length = sound.length :=
        le_antisymm (List.length_filter_le _ _) (not_lt.mp hshorter)
      exact ⟨h, List.filter_eq_self.mp (List.filter_sublist.eq_of_length hlength)⟩

/-! ### The verdict -/

section

variable {s : Setting} {mapMode : Bool}

theorem Blocked.of_dependsOn {asm : Assembly} {name : TypeName} {node : Node}
    (hnode : graph.node? name = some node)
    (h : graph.DependsOn (Blocked asm mapMode graph) node) : Blocked asm mapMode graph name := by
  obtain ⟨hobject, ⟨base, hbase, hblocked⟩ |
    ⟨m, hm, hformatter, hclosed, target, hpasses, hblocked⟩⟩ := h
  · exact .base hnode hobject hbase hblocked
  · exact .member hnode hobject hm hformatter hclosed hpasses hblocked

theorem DependsOn.mono {P Q : TypeName → Prop} {node : Node} (h : graph.DependsOn P node)
    (hPQ : ∀ name, P name → Q name) : graph.DependsOn Q node := by
  obtain ⟨hobject, ⟨base, hbase, hP⟩ | ⟨m, hm, hformatter, hclosed, target, hpasses, hP⟩⟩ := h
  · exact ⟨hobject, .inl ⟨base, hbase, hPQ _ hP⟩⟩
  · exact ⟨hobject, .inr ⟨m, hm, hformatter, hclosed, target, hpasses, hPQ _ hP⟩⟩

theorem mem_names_of_blocked {asm : Assembly} {name : TypeName}
    (h : Blocked asm mapMode graph name) : name ∈ graph.names := by
  cases h with
  | finding hnode _ => exact mem_names_of_node? hnode
  | base hnode _ _ _ => exact mem_names_of_node? hnode
  | member hnode _ _ _ _ _ _ => exact mem_names_of_node? hnode

def faulty (asm : Assembly) (mapMode : Bool) (graph : TypeGraph) : List TypeName :=
  ((graph.nodes.toList.zip (graph.nodes.toList.map (graph.findingsOf asm mapMode))).filter
    (!·.2.isEmpty)).map (·.1.name)

theorem mem_faulty_iff {asm : Assembly} {name : TypeName} :
    name ∈ faulty asm mapMode graph ↔
      ∃ node ∈ graph.nodes, node.name = name ∧ graph.findingsOf asm mapMode node ≠ [] := by
  rw [faulty, ← List.map_prod_left_eq_zip]
  simp only [List.mem_map, List.mem_filter, Array.mem_toList_iff, Bool.not_eq_true',
    List.isEmpty_eq_false_iff]
  constructor
  · rintro ⟨_, ⟨⟨node, hnode, rfl⟩, hfinding⟩, rfl⟩
    exact ⟨node, hnode, rfl, hfinding⟩
  · rintro ⟨node, hnode, rfl, hfinding⟩
    exact ⟨_, ⟨⟨node, hnode, rfl⟩, hfinding⟩, rfl⟩

/-- What is true of the types that are left after any number of rounds: they have no findings, and
all others are blocked. -/
def Sifted (asm : Assembly) (mapMode : Bool) (graph : TypeGraph) (sound : List TypeName) : Prop :=
  (∀ name ∈ sound, name ∉ faulty asm mapMode graph) ∧
    ∀ name ∈ graph.names, name ∉ sound → Blocked asm mapMode graph name

theorem Complete.sifted_initial (hg : Complete s graph) :
    Sifted s.assembly mapMode graph (graph.namesOutside (faulty s.assembly mapMode graph)) := by
  refine ⟨fun name hname => (mem_namesOutside_iff.mp hname).2, fun name hname hout => ?_⟩
  have hfaulty : name ∈ faulty s.assembly mapMode graph := by
    by_contra hnot
    exact hout (mem_namesOutside_iff.mpr ⟨hname, hnot⟩)
  obtain ⟨node, hnode, rfl, hfinding⟩ := mem_faulty_iff.mp hfaulty
  exact .finding ((node?_eq_some_iff hg.distinct).mpr ⟨hnode, rfl⟩) hfinding

/-- What a round drops depends on a blocked type, so it is blocked. -/
theorem Complete.sifted_keep (hg : Complete s graph) {sound : List TypeName}
    (h : Sifted s.assembly mapMode graph sound) :
    Sifted s.assembly mapMode graph (graph.keep sound) := by
  refine ⟨fun name hname => h.1 name (List.mem_filter.mp hname).1, fun name hname hkeep => ?_⟩
  by_cases hmem : name ∈ sound
  · obtain ⟨t, -, -, hnode⟩ := hg.exists_node? hname
    have hdepends : graph.DependsOn (· ∈ graph.namesOutside sound) (s.nodeOf t) := by
      by_contra hnot
      exact hkeep (List.mem_filter.mpr ⟨hmem, (isIndependent_iff hnode).mpr hnot⟩)
    refine Blocked.of_dependsOn hnode (hdepends.mono fun other hother => ?_)
    obtain ⟨hin, hnot⟩ := mem_namesOutside_iff.mp hother
    exact h.2 other hin hnot
  · exact h.2 name hname hmem

/-- A node that is not blocked has no findings. -/
theorem findingsOf_eq_nil {asm : Assembly} {name : TypeName} {node : Node}
    (hnode : graph.node? name = some node) (hsound : ¬ Blocked asm mapMode graph name) :
    graph.findingsOf asm mapMode node = [] := by
  by_contra hfinding
  exact hsound (.finding hnode hfinding)

/-- In a graph without findings nothing is blocked. -/
theorem not_blocked_of_findingsOf {asm : Assembly}
    (h : ∀ node ∈ graph.nodes.toList, graph.findingsOf asm mapMode node = []) (name : TypeName) :
    ¬ Blocked asm mapMode graph name := by
  intro hblocked
  induction hblocked with
  | finding hnode hfinding =>
    exact hfinding (h _ (Array.mem_toList_iff.mpr (Array.mem_of_find?_eq_some hnode)))
  | base _ _ _ _ ih => exact ih
  | member _ _ _ _ _ _ _ ih => exact ih

/-- When the first round drops no type, only the nodes with findings are blocked. -/
theorem blocked_ofGraph_of_keep {asm : Assembly}
    (hkeep : graph.keep (graph.namesOutside (faulty asm mapMode graph)) =
      graph.namesOutside (faulty asm mapMode graph)) :
    (Verdict.ofGraph asm mapMode graph).blocked =
      graph.namesOutside (graph.namesOutside (faulty asm mapMode graph)) := by
  change graph.namesOutside (graph.settle (graph.namesOutside (faulty asm mapMode graph))) = _
  rw [settle_eq, hkeep, if_neg (lt_irrefl _)]

/-- The verdict on a complete graph blocks the types that are blocked. -/
theorem Complete.isBlocked_iff (hg : Complete s graph) {name : TypeName} :
    (Verdict.ofGraph s.assembly mapMode graph).isBlocked name = true ↔
      Blocked s.assembly mapMode graph name := by
  obtain ⟨⟨hleft, hdropped⟩, hindependent⟩ :=
    settle_invariant (P := Sifted s.assembly mapMode graph) (fun _ => hg.sifted_keep)
      hg.sifted_initial
  rw [Verdict.isBlocked, Verdict.ofGraph, List.contains_iff_mem]
  change name ∈ graph.namesOutside (graph.settle (graph.namesOutside (faulty _ _ _))) ↔ _
  rw [mem_namesOutside_iff]
  constructor
  · rintro ⟨hname, hout⟩
    exact hdropped name hname hout
  · intro hblocked
    -- Along the reasons for a type to be blocked: none of the types left has such a reason.
    refine ⟨mem_names_of_blocked hblocked, ?_⟩
    induction hblocked with
    | @finding name node hnode hfinding =>
      intro hin
      obtain ⟨hnodes, hname⟩ := (node?_eq_some_iff hg.distinct).mp hnode
      exact hleft name hin (mem_faulty_iff.mpr ⟨node, hnodes, hname, hfinding⟩)
    | base hnode hobject hbase hblocked ih =>
      intro hin
      refine (isIndependent_iff hnode).mp (hindependent _ hin) ⟨hobject, .inl ⟨_, hbase, ?_⟩⟩
      exact mem_namesOutside_iff.mpr ⟨mem_names_of_blocked hblocked, ih⟩
    | member hnode hobject hm hformatter hclosed hpasses hblocked ih =>
      intro hin
      refine (isIndependent_iff hnode).mp (hindependent _ hin)
        ⟨hobject, .inr ⟨_, hm, hformatter, hclosed, _, hpasses, ?_⟩⟩
      exact mem_namesOutside_iff.mpr ⟨mem_names_of_blocked hblocked, ih⟩

end

end TypeGraph

end FormatterPlan
