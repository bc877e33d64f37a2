import FormatterPlan.Proofs.Discovery
import FormatterPlan.TypeGraph.Verdict

/-! Complete graphs: those in which every reference has a node.  In them a closed type and a name
are the same thing, so the node of a reference can be told from the type of the reference alone. -/

namespace FormatterPlan

namespace TypeGraph

/-- A graph of types that fit, each name once, with a node for each reference. -/
structure Complete (s : Setting) (graph : TypeGraph) : Prop where
  wellFormed : s.assembly.WellFormed
  distinct : graph.names.Nodup
  made : ∀ node ∈ graph.nodes, ∃ t, t.Fits s.assembly Ty.AnyParam ∧ node = s.nodeOf t
  closed : ∀ node ∈ graph.nodes, ∀ r ∈ node.refs, r.name ∈ graph.names

variable {s : Setting} {graph : TypeGraph}

theorem complete_of_graphOf (hwf : s.assembly.WellFormed) {control : RunControl} {symbol : Symbol}
    (hsymbol : symbol.index < s.assembly.defs.size) (h : s.graphOf control symbol = .ok graph) :
    Complete s graph := by
  obtain ⟨last, hlast, hexplored⟩ := explored_of_graphOf hwf hsymbol h
  refine ⟨hwf, hexplored.distinct, fun node hnode => ?_, fun node hnode r hr => ?_⟩
  · obtain ⟨i, hi⟩ := Array.mem_iff_getElem?.mp hnode
    obtain ⟨k, t, ht, rfl⟩ := hexplored.reached i node hi
    exact ⟨t, ht.fits hwf (Setting.rootType_fits hsymbol), rfl⟩
  · obtain ⟨i, hi⟩ := Array.mem_iff_getElem?.mp hnode
    have hlt : i < graph.nodes.size := (Array.getElem?_eq_some_iff.mp hi).1
    exact hexplored.closed i (by omega) r.name ⟨node, hi, r, hr, rfl⟩

theorem mem_names_iff {name : TypeName} :
    name ∈ graph.names ↔ ∃ node ∈ graph.nodes, node.name = name := by
  simp [names]

theorem node?_eq_some_iff (h : graph.names.Nodup) {name : TypeName} {node : Node} :
    graph.node? name = some node ↔ node ∈ graph.nodes ∧ node.name = name := by
  rw [node?]
  constructor
  · intro hfound
    exact ⟨Array.mem_of_find?_eq_some hfound, by simpa using Array.find?_some hfound⟩
  · rintro ⟨hnode, rfl⟩
    cases hfound : graph.nodes.find? (·.name == node.name) with
    | none =>
      have hne := Array.find?_eq_none.mp hfound node hnode
      simp at hne
    | some other =>
      have hother := Array.mem_of_find?_eq_some hfound
      have hname : other.name = node.name := by simpa using Array.find?_some hfound
      obtain ⟨i, hi⟩ := Array.mem_iff_getElem?.mp hnode
      obtain ⟨j, hj⟩ := Array.mem_iff_getElem?.mp hother
      obtain rfl := getElem?_inj_of_name_eq h hj hi hname
      rw [hi] at hj
      exact hj.symm

theorem mem_names_of_node? {name : TypeName} {node : Node} (h : graph.node? name = some node) :
    name ∈ graph.names := by
  rw [node?] at h
  exact mem_names_iff.mpr ⟨node, Array.mem_of_find?_eq_some h, by simpa using Array.find?_some h⟩

theorem exists_node?_of_mem_names {name : TypeName} (h : name ∈ graph.names) :
    ∃ node, graph.node? name = some node := by
  obtain ⟨node, hnode, rfl⟩ := mem_names_iff.mp h
  cases hfound : graph.node? node.name with
  | some found => exact ⟨found, rfl⟩
  | none =>
    have hne := Array.find?_eq_none.mp hfound node hnode
    simp at hne

namespace Complete

theorem exists_node? (hg : Complete s graph) {name : TypeName} (h : name ∈ graph.names) :
    ∃ t, t.Fits s.assembly Ty.AnyParam ∧ s.assembly.typeName t = name ∧
      graph.node? name = some (s.nodeOf t) := by
  obtain ⟨node, hnode, rfl⟩ := mem_names_iff.mp h
  obtain ⟨t, ht, rfl⟩ := hg.made node hnode
  exact ⟨t, ht, Setting.nodeOf_name.symm, (node?_eq_some_iff hg.distinct).mpr ⟨hnode, rfl⟩⟩

theorem fits_of_mem (hg : Complete s graph) {t : Ty} (h : s.nodeOf t ∈ graph.nodes) :
    t.Fits s.assembly Ty.AnyParam := by
  obtain ⟨u, hu, heq⟩ := hg.made _ h
  obtain rfl : t = u := by simpa using congrArg (·.self.type) heq
  exact hu

/-- A node that is found is that of a type with its name. -/
theorem node?_made (hg : Complete s graph) {name : TypeName} {node : Node}
    (h : graph.node? name = some node) :
    ∃ t, t.Fits s.assembly Ty.AnyParam ∧ s.assembly.typeName t = name ∧ node = s.nodeOf t := by
  obtain ⟨t, ht, hname, hnode⟩ := hg.exists_node? (mem_names_of_node? h)
  rw [h] at hnode
  exact ⟨t, ht, hname, Option.some.inj hnode⟩

/-- The node of a closed type is the one that its type makes. -/
theorem node?_typeName (hg : Complete s graph) {t : Ty} (ht : t.Fits s.assembly Ty.AnyParam)
    (hclosed : t.isClosed = true) (h : s.assembly.typeName t ∈ graph.names) :
    graph.node? (s.assembly.typeName t) = some (s.nodeOf t) := by
  obtain ⟨u, hu, hname, hnode⟩ := hg.exists_node? h
  rw [hnode, hg.wellFormed.distinct.eq_of_typeName_eq ht hu hclosed hname.symm]

theorem node?_of_mem_refs (hg : Complete s graph) {name : TypeName} {node : Node}
    (hnode : graph.node? name = some node) {r : NamedType} (hr : r ∈ node.refs)
    (hclosed : r.type.isClosed = true) :
    r.type.Fits s.assembly Ty.AnyParam ∧ r = s.named r.type ∧
      graph.node? r.name = some (s.nodeOf r.type) := by
  obtain ⟨t, ht, -, rfl⟩ := hg.node?_made hnode
  obtain ⟨u, hrefers, rfl⟩ := (Setting.mem_refs_iff hg.wellFormed ht).mp hr
  have hu := hrefers.fits hg.wellFormed ht
  have hmem := hg.closed _ ((node?_eq_some_iff hg.distinct).mp hnode).1 _ hr
  exact ⟨hu, rfl, hg.node?_typeName hu hclosed hmem⟩

end Complete

end TypeGraph

/-! ### References of each kind -/

namespace Node

variable {node : Node}

theorem mem_refs_of_mem_bases {r : NamedType} (h : r ∈ node.bases) : r ∈ node.refs := by
  simp [refs, h]

theorem mem_refs_of_mem_members {m : NodeMember} (h : m ∈ node.members)
    (hclosed : m.declared.type.isClosed = true) : m.declared ∈ node.refs := by
  simp only [refs, List.mem_append, List.mem_filter, List.mem_map]
  exact .inl (.inl (.inr ⟨⟨m, h, rfl⟩, hclosed⟩))

theorem mem_refs_of_mem_variants {v : Variant} (h : v ∈ node.variants) : v.type ∈ node.refs := by
  simp only [refs, List.mem_append, List.mem_map]
  exact .inl (.inr ⟨v, h, rfl⟩)

theorem mem_refs_of_mem_elements {r : NamedType} (h : r ∈ node.elements) : r ∈ node.refs := by
  simp [refs, h]

end Node

namespace Setting

variable {s : Setting} {t : Ty}

theorem isClosed_of_mem_bases {r : NamedType} (h : r ∈ (s.nodeOf t).bases) :
    r.type.isClosed = true := by
  rw [nodeOf_bases] at h
  split at h
  · exact (List.mem_filter.mp h).2
  · simp at h

theorem isClosed_of_mem_variants {v : Variant} (h : v ∈ (s.nodeOf t).variants) :
    v.type.type.isClosed = true := by
  obtain ⟨-, a, -, -, tag, written, -, hclosed, rfl⟩ := mem_nodeOf_variants_iff.mp h
  exact hclosed

theorem isClosed_of_mem_elements {shape : CollectionShape} (hkind : s.kindOf t = .collection shape)
    (hclosed : t.isClosed = true) {r : NamedType} (h : r ∈ (s.nodeOf t).elements) :
    r.type.isClosed = true := by
  rcases mem_nodeOf_elements_iff.mp h with
    ⟨_, -, ⟨element, rank, rfl, rfl⟩ | ⟨u, hu, rfl⟩⟩ | ⟨henum, -⟩
  · simpa using hclosed
  · cases t with
    | named symbol args =>
      rw [Ty.isClosed_named, List.all_eq_true] at hclosed
      exact hclosed u hu
    | array element rank => simp [Ty.args] at hu
    | param index name => simp [Ty.args] at hu
  · simp [hkind] at henum

theorem isClosed_of_mem_members (hwf : s.assembly.WellFormed) (ht : t.Fits s.assembly Ty.AnyParam)
    (hclosed : t.isClosed = true) {m : NodeMember} (h : m ∈ (s.nodeOf t).members) :
    m.declared.type.isClosed = true := by
  have hfits := ht.noParam hclosed
  obtain ⟨-, level, hlevel, member, hm, type, key, htype, -, rfl⟩ := mem_nodeOf_members_iff.mp h
  rcases (mem_levelsOf_iff hwf hfits).mp hlevel with rfl | ⟨u, habove, rfl⟩
  · exact (fits_of_mem_dataAt hwf hfits hm htype).isClosed
  · exact (fits_of_mem_dataAt hwf (habove.fits hwf hfits) hm htype).isClosed

end Setting

end FormatterPlan
