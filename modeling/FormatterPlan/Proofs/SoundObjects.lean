import FormatterPlan.Proofs.AnalysisResult

/-! What is known of an object that is not blocked.  Its checked members have keys and are of types
that have formatters, no attribute of it is used in a wrong way, and neither a base nor a type that
a member is written with is blocked.  The members of a base that is marked as an object are checked
with the base, so what is known of them comes from the node of the base, if that is an object. -/

namespace FormatterPlan

namespace TypeGraph

variable {asm : Assembly} {mapMode : Bool} {graph : TypeGraph} {node : Node}

theorem findingsOf_object_eq_nil (h : graph.findingsOf asm mapMode node = [])
    (hobject : node.kind.isObject = true) :
    graph.markingFindings node = [] ∧ keyFindings node = [] ∧ nullKeyFindings node = [] ∧
      node.defects = [] := by
  unfold findingsOf at h
  simp only [hobject, if_true, List.append_eq_nil_iff, List.map_eq_nil_iff] at h
  exact ⟨h.1.1.1.1.1.1.1, h.1.1.1.1.1.1.2, h.1.1.1.1.1.2, h.2⟩

/-- Without findings a checked member has a key. -/
theorem isKeyed_of_mem_checkedMembers (hkey : keyFindings node = [])
    (hnull : nullKeyFindings node = []) {m : NodeMember} (h : m ∈ checkedMembers node) :
    m.key.isKeyed = true := by
  rw [keyFindings, List.map_eq_nil_iff, List.filter_eq_nil_iff] at hkey
  rw [nullKeyFindings, List.map_eq_nil_iff, List.filter_eq_nil_iff] at hnull
  have hne := hkey m h
  have hne' := hnull m h
  cases hm : m.key <;> simp_all [MemberKey.isKeyed]

/-- Without findings the type of a checked member is made of types that have formatters, if the
member names none. -/
theorem unmarkedLeaves_eq_nil (hmarking : graph.markingFindings node = []) {m : NodeMember}
    (h : m ∈ checkedMembers node) (hformatter : m.formatter = none)
    (hclosed : m.declared.type.isClosed = true) : graph.unmarkedLeaves m.declared.name = [] := by
  rw [markingFindings, List.flatMap_eq_nil_iff] at hmarking
  simpa [hformatter, hclosed] using hmarking m h

theorem mem_checkedMembers_iff {m : NodeMember} : m ∈ checkedMembers node ↔
    m ∈ node.members ∧ ∀ base, m.origin ≠ .inherited base true := by
  rw [checkedMembers, List.mem_filter]
  refine and_congr_right fun _ => ?_
  match m.origin with
  | .own => simp
  | .inherited base true => simp
  | .inherited base false => simp

end TypeGraph

theorem StrategySetting.isSome_plannedMember? {n : NodeMember} :
    (plannedMember? n).isSome = n.key.isKeyed := by
  unfold plannedMember?
  cases n.key <;> rfl

namespace Setting.Analyzed

variable {s : Setting} {a : Analysis} {t u : Ty} {keysAsNames : Bool} {planned : List PlannedMember}

/-- A closed object that is not blocked. -/
structure IsSoundObject (s : Setting) (a : Analysis) (t : Ty) : Prop extends HasNode s a t where
  isObject : (s.kindOf t).isObject = true
  sound : ¬ TypeGraph.Blocked s.assembly s.options.mapMode a.graph (s.assembly.typeName t)

theorem WrittenAsObject.isSoundObject (h : WrittenAsObject s a t keysAsNames planned) :
    IsSoundObject s a t :=
  ⟨h.toHasNode, by rw [h.kind]; rfl, h.sound⟩

/-- A base of an object that is not blocked is not blocked. -/
theorem IsSoundObject.base (hcomplete : TypeGraph.Complete s a.graph) (h : IsSoundObject s a t)
    (habove : s.Above t.symbol?.toList t u) (hobject : (s.kindOf u).isObject = true) :
    IsSoundObject s a u := by
  have hfits := habove.fits hcomplete.wellFormed (h.fits.noParam h.isClosed)
  have hbase : s.named u ∈ (s.nodeOf t).bases :=
    (mem_nodeOf_bases_iff hcomplete.wellFormed h.fits).mpr
      ⟨h.isObject, u, habove, hfits.isClosed, rfl⟩
  have hnode := (hcomplete.node?_of_mem_refs h.node (Node.mem_refs_of_mem_bases hbase)
    hfits.isClosed).2.2
  refine ⟨⟨hfits.anyParam, hfits.isClosed, hnode⟩, hobject, fun hblocked => ?_⟩
  exact h.sound (.base h.node (by rw [nodeOf_kind, h.isObject]) hbase hblocked)

theorem IsSoundObject.findings (h : IsSoundObject s a t) :
    a.graph.markingFindings (s.nodeOf t) = [] ∧ TypeGraph.keyFindings (s.nodeOf t) = [] ∧
      TypeGraph.nullKeyFindings (s.nodeOf t) = [] ∧ (s.nodeOf t).defects = [] :=
  TypeGraph.findingsOf_object_eq_nil (TypeGraph.findingsOf_eq_nil h.node h.sound)
    (by rw [nodeOf_kind, h.isObject])

/-- The members that an object has from itself and from bases that are not marked have keys. -/
theorem IsSoundObject.isKeyed (h : IsSoundObject s a t) {n : NodeMember}
    (hn : n ∈ (s.nodeOf t).members) (horigin : ∀ base, n.origin ≠ .inherited base true) :
    n.key.isKeyed = true := by
  obtain ⟨-, hkey, hnull, -⟩ := h.findings
  exact TypeGraph.isKeyed_of_mem_checkedMembers hkey hnull
    (TypeGraph.mem_checkedMembers_iff.mpr ⟨hn, horigin⟩)

end Setting.Analyzed

namespace Setting

variable {s : Setting} {t : Ty} {keysAsNames : Bool} {m : Member}

/-- Whether a member has a key: a number or a name. -/
def hasKey (s : Setting) (keysAsNames : Bool) (m : Member) : Bool :=
  (s.writtenKey? keysAsNames m).any MemberKey.isKeyed

/-- The written members of an object itself are members of its node. -/
theorem exists_own_member (hobject : (s.kindOf t).isObject = true) (hm : m ∈ s.dataAt t) {type : Ty}
    (htype : m.type = some type) (hwritten : s.IsWritten m) :
    ∃ key, s.writtenKey? (s.kindOf t).keysAsNames m = some key ∧
      s.nodeMember ⟨s.named t, .own⟩ m type key ∈ (s.nodeOf t).members := by
  obtain ⟨key, hkey⟩ := Option.isSome_iff_exists.mp (isSome_writtenKey?_iff.mpr hwritten)
  exact ⟨key, hkey, mem_nodeOf_members_iff.mpr
    ⟨hobject, _, List.mem_cons_self, m, hm, type, key, htype, hkey, rfl⟩⟩

end Setting

end FormatterPlan
