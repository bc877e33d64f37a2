import FormatterPlan.Proofs.PreludeRoles
import FormatterPlan.Proofs.References
import Mathlib.Order.Lattice.Nat

/-! What discovery finds.  The nodes of a graph are the types that are reached from its root, each
name once, and they stand in the order of their distance from the root.  While a graph is explored
the nodes in front are closed: what they refer to is there.  Every other node is one of those
references, and nodes that are found later are references of later nodes. -/

namespace FormatterPlan

/-! ### Reachable types -/

namespace Setting

/-- A type that is reached from a root by a number of references, one after the other. -/
inductive ReachedIn (s : Setting) (root : Ty) : Nat → Ty → Prop
  | root : ReachedIn s root 0 root
  | step {k : Nat} {t u : Ty} (hreached : ReachedIn s root k t) (hrefers : s.Refers t u) :
      ReachedIn s root (k + 1) u

/-- Whether a type with a name is reached by a number of references. -/
def NameReachedIn (s : Setting) (root : Ty) (k : Nat) (name : TypeName) : Prop :=
  ∃ t, s.ReachedIn root k t ∧ s.assembly.typeName t = name

/-- The distance of a name from a root: the least number of references that reach it. -/
noncomputable def distance (s : Setting) (root : Ty) (name : TypeName) : Nat :=
  sInf {k | s.NameReachedIn root k name}

variable {s : Setting} {root : Ty}

theorem ReachedIn.fits (hwf : s.assembly.WellFormed) (hroot : root.Fits s.assembly Ty.AnyParam)
    {k : Nat} {t : Ty} (h : s.ReachedIn root k t) : t.Fits s.assembly Ty.AnyParam := by
  induction h with
  | root => exact hroot
  | step _ hrefers ih => exact hrefers.fits hwf ih

/-- The root of an analysis fits: it is a declaration with its own parameters as arguments. -/
theorem rootType_fits {asm : Assembly} {symbol : Symbol} (h : symbol.index < asm.defs.size) :
    (TypeGraph.rootType asm symbol).Fits asm Ty.AnyParam := by
  have hd : asm.def? symbol = some asm.defs[symbol.index] := Array.getElem?_eq_getElem h
  rw [TypeGraph.rootType, Ty.definition, Ty.fits_named]
  refine ⟨⟨_, hd, by simp [Assembly.genericsOf, hd]⟩, fun t ht => ?_⟩
  obtain ⟨index, _, rfl⟩ := List.mem_mapIdx.mp ht
  exact trivial

end Setting

namespace TypeGraph

variable {s : Setting} {root : Ty}

/-! ### One step of discovery -/

def namesOf (nodes : Array Node) : List TypeName := nodes.toList.map Node.name

theorem mem_namesOf {nodes : Array Node} {name : TypeName} :
    name ∈ namesOf nodes ↔ ∃ (i : Nat) (node : Node), nodes[i]? = some node ∧ node.name = name := by
  simp only [namesOf, List.mem_map, Array.mem_toList_iff, Array.mem_iff_getElem?]
  constructor
  · rintro ⟨node, ⟨i, hi⟩, rfl⟩
    exact ⟨i, node, hi, rfl⟩
  · rintro ⟨i, node, hi, rfl⟩
    exact ⟨node, ⟨i, hi⟩, rfl⟩

/-- What becomes of nodes when references are added to them. -/
structure Grown (s : Setting) (refs : List NamedType) (nodes grown : Array Node) : Prop where
  /-- Nodes stay where they are. -/
  kept : ∀ (i : Nat) node, nodes[i]? = some node → grown[i]? = some node
  distinct : (namesOf grown).Nodup
  /-- Each reference has a node. -/
  covered : ∀ r ∈ refs, r.name ∈ namesOf grown
  /-- A new node is that of a reference. -/
  new : ∀ (i : Nat) node, grown[i]? = some node → nodes[i]? = some node ∨
    ∃ r ∈ refs, node = s.nodeOf r.type ∧ node.name = r.name

theorem add_grown {nodes : Array Node} (hdistinct : (namesOf nodes).Nodup) (t : Ty) :
    Grown s [s.named t] nodes (add s nodes (s.named t)) := by
  unfold add
  split
  case isTrue hany =>
    refine ⟨fun _ _ h => h, hdistinct, fun r hr => ?_, fun _ _ h => .inl h⟩
    obtain rfl := List.mem_singleton.mp hr
    rw [Array.any_eq_true'] at hany
    obtain ⟨node, hnode, hname⟩ := hany
    rw [namesOf, List.mem_map]
    exact ⟨node, Array.mem_toList_iff.mpr hnode, by simpa using hname⟩
  case isFalse hnone =>
    have hname : (s.nodeOf t).name = (s.named t).name := Setting.nodeOf_name
    have hnew : (s.named t).name ∉ namesOf nodes := by
      intro hmem
      refine hnone (Array.any_eq_true'.mpr ?_)
      obtain ⟨i, node, hi, hnode⟩ := mem_namesOf.mp hmem
      exact ⟨node, Array.mem_of_getElem? hi, by simpa using hnode⟩
    have hnames : namesOf (nodes.push (s.nodeOf (s.named t).type)) =
        namesOf nodes ++ [(s.named t).name] := by
      simp [namesOf, ← hname]
    refine ⟨fun i node hi => ?_, ?_, fun r hr => ?_, fun i node hi => ?_⟩
    · obtain ⟨hlt, -⟩ := Array.getElem?_eq_some_iff.mp hi
      rw [Array.getElem?_push_lt hlt, ← hi, Array.getElem?_eq_getElem hlt]
    · rw [hnames, List.nodup_append]
      refine ⟨hdistinct, List.nodup_singleton _, fun a ha b hb hab => ?_⟩
      exact hnew (List.mem_singleton.mp hb ▸ hab ▸ ha)
    · obtain rfl := List.mem_singleton.mp hr
      rw [hnames]
      exact List.mem_append_right _ (List.mem_singleton_self _)
    · rw [Array.getElem?_push] at hi
      split at hi
      · obtain rfl := Option.some.inj hi
        exact .inr ⟨s.named t, List.mem_singleton_self _, rfl, hname⟩
      · exact .inl hi

theorem foldl_add_grown {refs : List NamedType} (hrefs : ∀ r ∈ refs, ∃ t, r = s.named t)
    {nodes : Array Node} (hdistinct : (namesOf nodes).Nodup) :
    Grown s refs nodes (refs.foldl (add s) nodes) := by
  induction refs generalizing nodes with
  | nil => exact ⟨fun _ _ h => h, hdistinct, by simp, fun _ _ h => .inl h⟩
  | cons r refs ih =>
    obtain ⟨t, rfl⟩ := hrefs r List.mem_cons_self
    have hfirst := add_grown (s := s) hdistinct t
    have hrest := ih (fun r hr => hrefs r (List.mem_cons_of_mem _ hr)) hfirst.distinct
    rw [List.foldl_cons]
    refine ⟨fun i node hi => hrest.kept i node (hfirst.kept i node hi), hrest.distinct,
      fun r hr => ?_, fun i node hi => ?_⟩
    · rcases List.mem_cons.mp hr with rfl | hr
      · obtain ⟨i, node, hi, hname⟩ := mem_namesOf.mp (hfirst.covered _ (List.mem_singleton_self _))
        exact mem_namesOf.mpr ⟨i, node, hrest.kept i node hi, hname⟩
      · exact hrest.covered r hr
    · rcases hrest.new i node hi with hold | ⟨r, hr, hnode⟩
      · rcases hfirst.new i node hold with hold | ⟨r, hr, hnode⟩
        · exact .inl hold
        · exact .inr ⟨r, List.mem_singleton.mp hr ▸ List.mem_cons_self, hnode⟩
      · exact .inr ⟨r, List.mem_cons_of_mem _ hr, hnode⟩

/-! ### The invariant of discovery -/

/-- Whether a name is that of a reference of the node at a position. -/
def RefersFrom (nodes : Array Node) (q : Nat) (name : TypeName) : Prop :=
  ∃ p, nodes[q]? = some p ∧ ∃ r ∈ p.refs, r.name = name

/-- What holds of the nodes while those from position `next` on are still to be looked at. -/
structure Explored (s : Setting) (root : Ty) (next : Nat) (nodes : Array Node) : Prop where
  rooted : nodes[0]? = some (s.nodeOf root)
  distinct : (namesOf nodes).Nodup
  /-- Each node is that of a type that is reached. -/
  reached : ∀ (i : Nat) node, nodes[i]? = some node →
    ∃ k t, s.ReachedIn root k t ∧ node = s.nodeOf t
  /-- The references of a node that has been looked at have nodes. -/
  closed : ∀ q < next, ∀ name, RefersFrom nodes q name → name ∈ namesOf nodes
  /-- Each node but the root is a reference of a node that has been looked at. -/
  found : ∀ (i : Nat) node, nodes[i]? = some node → i = 0 ∨
    ∃ q < next, RefersFrom nodes q node.name
  /-- A node before a reference of the node at `q` is a reference of that node or one before it. -/
  ordered : ∀ q < next, ∀ (j : Nat) node, nodes[j]? = some node → RefersFrom nodes q node.name →
    ∀ i ≤ j, ∀ earlier, nodes[i]? = some earlier → i = 0 ∨
      ∃ q' ≤ q, RefersFrom nodes q' earlier.name

/-- Nodes of one name are one node. -/
theorem getElem?_inj_of_name_eq {nodes : Array Node} (h : (namesOf nodes).Nodup) {i j : Nat}
    {m n : Node} (hi : nodes[i]? = some m) (hj : nodes[j]? = some n) (hname : m.name = n.name) :
    i = j := by
  have hlt : i < (namesOf nodes).length := by
    obtain ⟨hlt, -⟩ := Array.getElem?_eq_some_iff.mp hi
    simpa [namesOf] using hlt
  refine (List.getElem?_inj hlt h).mp ?_
  simp [namesOf, hi, hj, hname]

theorem Explored.initial : Explored s root 0 #[s.nodeOf root] := by
  refine ⟨rfl, by simp [namesOf], fun i node hi => ?_, by simp, fun i node hi => ?_, by simp⟩
  · obtain ⟨hlt, rfl⟩ := Array.getElem?_eq_some_iff.mp hi
    obtain rfl : i = 0 := by simpa using hlt
    exact ⟨0, root, .root, rfl⟩
  · exact .inl (by simpa using (Array.getElem?_eq_some_iff.mp hi).1)

/-- Looking at one more node keeps the invariant. -/
theorem Explored.step (hwf : s.assembly.WellFormed) (hroot : root.Fits s.assembly Ty.AnyParam)
    {next : Nat} {nodes : Array Node} (h : Explored s root next nodes) {node : Node}
    (hnode : nodes[next]? = some node) :
    Explored s root (next + 1) (node.refs.foldl (add s) nodes) := by
  obtain ⟨k, t, ht, rfl⟩ := h.reached next node hnode
  have hfits := ht.fits hwf hroot
  have hrefs : ∀ r ∈ (s.nodeOf t).refs, ∃ u, s.Refers t u ∧ r = s.named u :=
    fun r => (Setting.mem_refs_iff hwf hfits).mp
  have hgrown := foldl_add_grown (fun r hr => (hrefs r hr).imp fun _ h => h.2) h.distinct
  have hlt : next < nodes.size := (Array.getElem?_eq_some_iff.mp hnode).1
  -- The nodes looked at so far are among the old ones, so their references are what they were.
  have hold : ∀ q ≤ next, ∀ name, RefersFrom ((s.nodeOf t).refs.foldl (add s) nodes) q name ↔
      RefersFrom nodes q name := by
    intro q hq name
    have hget : nodes[q]? = some nodes[q] := Array.getElem?_eq_getElem (by omega)
    rw [RefersFrom, RefersFrom, hget, hgrown.kept q _ hget]
  have hnext : ∀ name, RefersFrom nodes next name ↔ ∃ r ∈ (s.nodeOf t).refs, r.name = name := by
    intro name
    simp [RefersFrom, hnode]
  constructor
  case rooted => exact hgrown.kept 0 _ h.rooted
  case distinct => exact hgrown.distinct
  case reached =>
    intro i node hi
    rcases hgrown.new i node hi with hi | ⟨r, hr, rfl, -⟩
    · exact h.reached i node hi
    · obtain ⟨u, hrefers, rfl⟩ := hrefs r hr
      exact ⟨k + 1, u, .step ht hrefers, rfl⟩
  case closed =>
    intro q hq name hname
    rw [hold q (by omega)] at hname
    rcases Nat.lt_succ_iff_lt_or_eq.mp hq with hq | rfl
    · obtain ⟨i, node, hi, rfl⟩ := mem_namesOf.mp (h.closed q hq name hname)
      exact mem_namesOf.mpr ⟨i, node, hgrown.kept i node hi, rfl⟩
    · obtain ⟨r, hr, rfl⟩ := (hnext name).mp hname
      exact hgrown.covered r hr
  case found =>
    intro i node hi
    rcases hgrown.new i node hi with hi | ⟨r, hr, -, hname⟩
    · rcases h.found i node hi with hzero | ⟨q, hq, hfrom⟩
      · exact .inl hzero
      · exact .inr ⟨q, by omega, (hold q (by omega) _).mpr hfrom⟩
    · exact .inr ⟨next, by omega, (hold next le_rfl _).mpr ((hnext _).mpr ⟨r, hr, hname.symm⟩)⟩
  case ordered =>
    intro q hq j node hj hfrom i hij earlier hi
    rw [hold q (by omega)] at hfrom
    rcases Nat.lt_succ_iff_lt_or_eq.mp hq with hq | rfl
    · -- The reference was there before, hence so was every node in front of it.
      obtain ⟨j', node', hj', hname⟩ := mem_namesOf.mp (h.closed q hq _ hfrom)
      obtain rfl := getElem?_inj_of_name_eq hgrown.distinct (hgrown.kept j' node' hj') hj hname
      have hlt' : i < nodes.size := by
        have := (Array.getElem?_eq_some_iff.mp hj').1
        omega
      have hearlier : nodes[i]? = some earlier := by
        have hget : nodes[i]? = some nodes[i] := Array.getElem?_eq_getElem hlt'
        rw [hget, ← hgrown.kept i _ hget, hi]
      rcases h.ordered q hq j' node' hj' (hname ▸ hfrom) i hij earlier hearlier with
        hzero | ⟨q', hq', hfrom'⟩
      · exact .inl hzero
      · exact .inr ⟨q', hq', (hold q' (by omega) _).mpr hfrom'⟩
    · rcases hgrown.new i earlier hi with hi | ⟨r, hr, -, hname⟩
      · rcases h.found i earlier hi with hzero | ⟨q', hq', hfrom'⟩
        · exact .inl hzero
        · exact .inr ⟨q', by omega, (hold q' (by omega) _).mpr hfrom'⟩
      · exact .inr ⟨q, le_rfl, (hold q le_rfl _).mpr ((hnext _).mpr ⟨r, hr, hname.symm⟩)⟩

/-- When discovery comes to its end, all nodes have been looked at. -/
theorem Explored.explore (hwf : s.assembly.WellFormed) (hroot : root.Fits s.assembly Ty.AnyParam)
    {steps next : Nat} {nodes : Array Node} {graph : TypeGraph} (h : Explored s root next nodes)
    (hgraph : explore s steps next nodes = some graph) :
    ∃ last, graph.nodes.size ≤ last ∧ Explored s root last graph.nodes := by
  induction steps generalizing next nodes with
  | zero =>
    rw [TypeGraph.explore] at hgraph
    split at hgraph
    · rename_i hnone
      obtain rfl := Option.some.inj hgraph
      exact ⟨next, Array.getElem?_eq_none_iff.mp hnone, h⟩
    · simp at hgraph
  | succ steps ih =>
    rw [TypeGraph.explore] at hgraph
    split at hgraph
    · rename_i hnone
      obtain rfl := Option.some.inj hgraph
      exact ⟨next, Array.getElem?_eq_none_iff.mp hnone, h⟩
    · rename_i node hnode
      exact ih (h.step hwf hroot hnode) hgraph

/-! ### Completed graphs -/

/-- A node refers to the names of what any reached type of its name refers to. -/
theorem Explored.refersFrom_iff (hwf : s.assembly.WellFormed)
    (hroot : root.Fits s.assembly Ty.AnyParam) {last : Nat} {nodes : Array Node}
    (h : Explored s root last nodes) {q : Nat} {p : Node} (hq : nodes[q]? = some p) {k : Nat}
    {t : Ty} (ht : s.ReachedIn root k t) (hname : s.assembly.typeName t = p.name)
    (name : TypeName) :
    RefersFrom nodes q name ↔ ∃ u, s.Refers t u ∧ s.assembly.typeName u = name := by
  obtain ⟨k', t', ht', rfl⟩ := h.reached q p hq
  have hfits := ht.fits hwf hroot
  have hfits' := ht'.fits hwf hroot
  rw [Setting.nodeOf_name] at hname
  constructor
  · rintro ⟨p, hp, r, hr, rfl⟩
    obtain rfl : s.nodeOf t' = p := by rw [hq] at hp; exact Option.some.inj hp
    obtain ⟨u', hrefers, rfl⟩ := (Setting.mem_refs_iff hwf hfits').mp hr
    obtain ⟨u, hrefers, hu⟩ := hrefers.exists_of_typeName_eq hwf hfits' hfits hname.symm
    exact ⟨u, hrefers, hu.symm⟩
  · rintro ⟨u, hrefers, rfl⟩
    obtain ⟨u', hrefers', hu⟩ := hrefers.exists_of_typeName_eq hwf hfits hfits' hname
    exact ⟨_, hq, s.named u', (Setting.mem_refs_iff hwf hfits').mpr ⟨u', hrefers', rfl⟩, hu.symm⟩

/-- Nodes that have all been looked at hold exactly the names that are reached. -/
theorem Explored.mem_namesOf_iff (hwf : s.assembly.WellFormed)
    (hroot : root.Fits s.assembly Ty.AnyParam) {last : Nat} {nodes : Array Node}
    (h : Explored s root last nodes) (hlast : nodes.size ≤ last) (name : TypeName) :
    name ∈ namesOf nodes ↔ ∃ k, s.NameReachedIn root k name := by
  constructor
  · intro hname
    obtain ⟨i, node, hi, rfl⟩ := mem_namesOf.mp hname
    obtain ⟨k, t, ht, rfl⟩ := h.reached i node hi
    exact ⟨k, t, ht, Setting.nodeOf_name.symm⟩
  · rintro ⟨k, t, ht, rfl⟩
    induction ht with
    | root => exact mem_namesOf.mpr ⟨0, _, h.rooted, Setting.nodeOf_name⟩
    | @step k t u ht hrefers ih =>
      obtain ⟨q, p, hq, hname⟩ := mem_namesOf.mp ih
      have hlt : q < nodes.size := (Array.getElem?_eq_some_iff.mp hq).1
      exact h.closed q (by omega) _
        ((h.refersFrom_iff hwf hroot hq ht hname.symm _).mpr ⟨u, hrefers, rfl⟩)

/-- A node before one that is reached by `k` references is reached by no more. -/
theorem Explored.nameReachedIn_of_le (hwf : s.assembly.WellFormed)
    (hroot : root.Fits s.assembly Ty.AnyParam) {last : Nat} {nodes : Array Node}
    (h : Explored s root last nodes) (hlast : nodes.size ≤ last) {k j : Nat} {node : Node}
    (hj : nodes[j]? = some node) (hreached : s.NameReachedIn root k node.name) {i : Nat}
    (hij : i ≤ j) {earlier : Node} (hi : nodes[i]? = some earlier) :
    ∃ k' ≤ k, s.NameReachedIn root k' earlier.name := by
  induction k generalizing i j node earlier with
  | zero =>
    obtain ⟨t, ht, hname⟩ := hreached
    cases ht
    obtain rfl := getElem?_inj_of_name_eq h.distinct h.rooted hj
      (Setting.nodeOf_name.trans hname)
    obtain rfl : i = 0 := Nat.le_zero.mp hij
    obtain rfl : node = earlier := by rw [hj] at hi; exact Option.some.inj hi
    exact ⟨0, le_rfl, root, .root, hname⟩
  | succ k ih =>
    obtain ⟨u, hu, hname⟩ := hreached
    cases hu with
    | @step _ t _ ht hrefers =>
      -- The type before the last reference has a node `q`, and nodes up to `q` are no further away.
      obtain ⟨q, p, hq, hpname⟩ :=
        mem_namesOf.mp ((h.mem_namesOf_iff hwf hroot hlast _).mpr ⟨k, t, ht, rfl⟩)
      have hlt : q < nodes.size := (Array.getElem?_eq_some_iff.mp hq).1
      have hfrom := (h.refersFrom_iff hwf hroot hq ht hpname.symm _).mpr ⟨u, hrefers, hname⟩
      rcases h.ordered q (by omega) j node hj hfrom i hij earlier hi with rfl | ⟨q', hq', hfrom'⟩
      · obtain rfl : s.nodeOf root = earlier := by
          rw [h.rooted] at hi; exact Option.some.inj hi
        exact ⟨0, by omega, root, .root, Setting.nodeOf_name.symm⟩
      · obtain ⟨p', hp', -⟩ := id hfrom'
        obtain ⟨k', hk', t', ht', hname'⟩ := ih hq ⟨t, ht, hpname.symm⟩ hq' hp'
        obtain ⟨u', hrefers', hu'⟩ := (h.refersFrom_iff hwf hroot hp' ht' hname' _).mp hfrom'
        exact ⟨k' + 1, by omega, u', .step ht' hrefers', hu'⟩

/-- Nodes that have all been looked at stand in the order of their distance from the root. -/
theorem Explored.distance_le (hwf : s.assembly.WellFormed)
    (hroot : root.Fits s.assembly Ty.AnyParam) {last : Nat} {nodes : Array Node}
    (h : Explored s root last nodes) (hlast : nodes.size ≤ last) {i j : Nat} (hij : i ≤ j)
    {earlier node : Node} (hi : nodes[i]? = some earlier) (hj : nodes[j]? = some node) :
    s.distance root earlier.name ≤ s.distance root node.name := by
  have hreached : {k | s.NameReachedIn root k node.name}.Nonempty :=
    (h.mem_namesOf_iff hwf hroot hlast _).mp (mem_namesOf.mpr ⟨j, node, hj, rfl⟩)
  obtain ⟨k, hk, hearlier⟩ :=
    h.nameReachedIn_of_le hwf hroot hlast hj (Nat.sInf_mem hreached) hij hi
  exact le_trans (Nat.sInf_le hearlier) hk

/-- The graph of a root is explored from the node of the root to the end. -/
theorem explored_of_graphOf (hwf : s.assembly.WellFormed) {control : RunControl} {symbol : Symbol}
    (hsymbol : symbol.index < s.assembly.defs.size) {graph : TypeGraph}
    (h : s.graphOf control symbol = .ok graph) :
    ∃ last, graph.nodes.size ≤ last ∧ Explored s (rootType s.assembly symbol) last graph.nodes := by
  unfold Setting.graphOf at h
  split at h
  · simp at h
  · split at h
    · rename_i found hfound
      obtain rfl : found = graph := by simpa using h
      exact Explored.initial.explore hwf (Setting.rootType_fits hsymbol) hfound
    · simp at h

theorem graphOf_eq_ok {control : RunControl} {symbol : Symbol} {nodes : Array Node}
    (hcontrol : control.cancelled = false)
    (h : (discover s control.steps symbol).map (·.nodes) = some nodes) :
    s.graphOf control symbol = .ok ⟨nodes⟩ := by
  obtain ⟨graph, hgraph, rfl⟩ := Option.map_eq_some_iff.mp h
  rw [Setting.graphOf, hcontrol, hgraph]
  rfl

/-- The position of a name is that of the node of this name. -/
theorem idOf?_eq_some_iff {graph : TypeGraph} (h : graph.names.Nodup) {name : TypeName} {i : Nat} :
    graph.idOf? name = some i ↔ ∃ node, graph.nodes[i]? = some node ∧ node.name = name := by
  rw [idOf?, Array.findIdx?_eq_some_iff_getElem]
  constructor
  · rintro ⟨hlt, hname, -⟩
    exact ⟨_, Array.getElem?_eq_getElem hlt, by simpa using hname⟩
  · rintro ⟨node, hi, rfl⟩
    obtain ⟨hlt, rfl⟩ := Array.getElem?_eq_some_iff.mp hi
    refine ⟨hlt, by simp, fun j hji => ?_⟩
    have hget : graph.nodes[j]? = some graph.nodes[j] := Array.getElem?_eq_getElem (by omega)
    by_contra hname
    have hij := getElem?_inj_of_name_eq h hget hi (by simpa using hname)
    omega

/-! ### The graph of a root -/

/-- What a graph has to be to hold the types that are reached from a root, each once, in the order
of breadth-first search. -/
structure IsBreadthFirst (s : Setting) (root : Ty) (graph : TypeGraph) : Prop where
  distinct : graph.names.Nodup
  named : ∀ node ∈ graph.nodes, node.name = s.assembly.typeName node.self.type
  /-- No node is left without the references of its type. -/
  expanded : ∀ node ∈ graph.nodes, node = s.nodeOf node.self.type
  indexed : ∀ name (i : Nat),
    graph.idOf? name = some i ↔ ∃ node, graph.nodes[i]? = some node ∧ node.name = name
  rooted : graph.idOf? (s.assembly.typeName root) = some 0
  /-- What a node refers to has a position in the graph. -/
  closed : ∀ node ∈ graph.nodes, ∀ r ∈ node.refs,
    ∃ i < graph.nodes.size, graph.idOf? r.name = some i
  reachable : ∀ name, name ∈ graph.names ↔ ∃ k, s.NameReachedIn root k name
  /-- Positions follow the distance from the root. -/
  ordered : ∀ (i j : Nat) earlier node, graph.nodes[i]? = some earlier →
    graph.nodes[j]? = some node → i ≤ j → s.distance root earlier.name ≤ s.distance root node.name

/-- In a loaded assembly the graph of a declaration, when discovery comes to an end, is the one of
breadth-first search. -/
theorem graphOf_isBreadthFirst {documents : List Document}
    (hload : Assembly.load documents = .ok s.assembly) {control : RunControl} {symbol : Symbol}
    (hsymbol : symbol.index < s.assembly.defs.size) {graph : TypeGraph}
    (hgraph : s.graphOf control symbol = .ok graph) :
    IsBreadthFirst s (rootType s.assembly symbol) graph := by
  have hwf := Assembly.wellFormed_of_load hload
  have hroot := Setting.rootType_fits hsymbol
  obtain ⟨last, hlast, h⟩ := explored_of_graphOf hwf hsymbol hgraph
  constructor
  case distinct => exact h.distinct
  case named =>
    intro node hnode
    obtain ⟨i, hi⟩ := Array.mem_iff_getElem?.mp hnode
    obtain ⟨k, t, -, rfl⟩ := h.reached i node hi
    rw [Setting.nodeOf_name, Setting.nodeOf_self, Setting.named_type]
  case expanded =>
    intro node hnode
    obtain ⟨i, hi⟩ := Array.mem_iff_getElem?.mp hnode
    obtain ⟨k, t, -, rfl⟩ := h.reached i node hi
    rw [Setting.nodeOf_self, Setting.named_type]
  case indexed => exact fun name i => idOf?_eq_some_iff h.distinct
  case rooted => exact (idOf?_eq_some_iff h.distinct).mpr ⟨_, h.rooted, Setting.nodeOf_name⟩
  case closed =>
    intro node hnode r hr
    obtain ⟨q, hq⟩ := Array.mem_iff_getElem?.mp hnode
    have hlt : q < graph.nodes.size := (Array.getElem?_eq_some_iff.mp hq).1
    obtain ⟨i, found, hi, hname⟩ :=
      mem_namesOf.mp (h.closed q (by omega) r.name ⟨node, hq, r, hr, rfl⟩)
    exact ⟨i, (Array.getElem?_eq_some_iff.mp hi).1,
      (idOf?_eq_some_iff h.distinct).mpr ⟨found, hi, hname⟩⟩
  case reachable => exact h.mem_namesOf_iff hwf hroot hlast
  case ordered => exact fun i j earlier node hi hj hij => h.distance_le hwf hroot hlast hij hi hj

/-- A class of trees, each with a size. -/
def treeDocument : Document where
  types := [
    { name := "App.Tree", kind := .concreteClass,
      attributes := [.bare "MessagePack.MessagePackObjectAttribute"],
      members := [
        { name := "Left", type := some "App.Tree",
          attributes := [.full "MessagePack.KeyAttribute" [.value (.number (.integer 0))]] },
        { name := "Size", type := some "System.Int32",
          attributes := [.full "MessagePack.KeyAttribute" [.value (.number (.integer 1))]] }] }]

/-- The class of trees as it is loaded. -/
def treeDef : TypeDef where
  name := "App.Tree"
  kind := .concreteClass
  generics := []
  base := none
  underlying := none
  attributes := [⟨⟨90⟩, []⟩]
  members := [
    { name := "Left", kind := .property, type := some (.named ⟨96⟩ []), params := [],
      access := .everyone, isStatic := false, attributes := [⟨⟨91⟩, [.int 0]⟩] },
    { name := "Size", kind := .property, type := some (.named ⟨5⟩ []), params := [],
      access := .everyone, isStatic := false, attributes := [⟨⟨91⟩, [.int 1]⟩] }]

/-- The setting of the class of trees, which comes right after the prelude. -/
def treeSetting : Setting := .ofDefs [treeDef] {}

/-- The class of trees and the type of their sizes. -/
def treeGraph : TypeGraph :=
  ⟨#[treeSetting.nodeOf (.named ⟨96⟩ []), treeSetting.nodeOf (.named ⟨5⟩ [])]⟩

theorem treeGraph_isBreadthFirst :
    Assembly.load [treeDocument] = .ok treeSetting.assembly ∧
      Setting.of? treeSetting.assembly [] {} = some treeSetting ∧
      96 < treeSetting.assembly.defs.size ∧ treeSetting.graphOf {} ⟨96⟩ = .ok treeGraph ∧
      IsBreadthFirst treeSetting (rootType treeSetting.assembly ⟨96⟩) treeGraph := by
  obtain ⟨hload, hroles⟩ : Assembly.load [treeDocument] = .ok treeSetting.assembly ∧
      Setting.of? treeSetting.assembly [] {} = some treeSetting :=
    Setting.loads_ofDefs (by decide +kernel) (toOption_eq_some_iff.mp (by decide +kernel)) {}
  have hsymbol : 96 < treeSetting.assembly.defs.size := by decide +kernel
  have hgraph : treeSetting.graphOf {} ⟨96⟩ = .ok treeGraph :=
    graphOf_eq_ok rfl (by decide +kernel)
  exact ⟨hload, hroles, hsymbol, hgraph, graphOf_isBreadthFirst hload hsymbol hgraph⟩

end TypeGraph

end FormatterPlan
