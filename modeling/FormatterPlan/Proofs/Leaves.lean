import FormatterPlan.Proofs.AnalysisResult

/-! Types that are made of types without formatters.  A closed type that passes its value on to no
blocked type gets a formatter exactly when it is not bare: neither it nor, if it is a collection, a
part of it is without kind and formatter.  Collections are nested in their arguments, so they cannot
come back to themselves, and the variants of a union without findings are never collections. -/

namespace FormatterPlan

/-- Whether a type gets a strategy other than none. -/
def Analysis.Formats (a : Analysis) (name : TypeName) : Prop :=
  ∃ strategy, a.strategyOf? name = some strategy ∧ strategy ≠ .unresolved

/-- The types that have no kind and no formatter, and the collections that are made of such. -/
inductive Setting.IsBare (s : Setting) : Ty → Prop
  | leaf {t : Ty} (hkind : s.kindOf t = .unresolved) (hformatter : (s.nodeOf t).formatter = none) :
      IsBare s t
  | element {t u : Ty} {shape : CollectionShape} (hkind : s.kindOf t = .collection shape)
      (hformatter : (s.nodeOf t).formatter = none) (helement : s.named u ∈ (s.nodeOf t).elements)
      (hbare : IsBare s u) : IsBare s t

/-- An object is no union. -/
theorem NodeKind.isUnion_of_isObject {kind : NodeKind} (h : kind.isObject = true) :
    kind.isUnion = false := by
  cases kind with
  | object keysAsNames isOpen => rfl
  | _ => cases h

namespace TypeGraph

variable {graph : TypeGraph}

theorem bareLeavesOfAll_eq_flatMap (names : List TypeName) :
    graph.bareLeavesOfAll names = names.flatMap graph.bareLeaves := by
  induction names with
  | nil => rw [bareLeavesOfAll, List.flatMap_nil]
  | cons name rest ih => rw [bareLeavesOfAll, ih, List.flatMap_cons]

/-- The leaves of a type: itself if it has no formatter, and those of its parts if it is a
collection. -/
theorem bareLeaves_typeName {s : Setting} {t : Ty}
    (hnode : graph.node? (s.assembly.typeName t) = some (s.nodeOf t)) :
    graph.bareLeaves (s.assembly.typeName t) =
      if (s.nodeOf t).formatter.isSome then []
      else match s.kindOf t with
        | .unresolved => [s.assembly.typeName t]
        | .collection _ => (s.nodeOf t).elements.flatMap fun r => graph.bareLeaves r.name
        | _ => [] := by
  have hleaves : ∀ parts, graph.leavesAt (s.assembly.typeName t) parts =
      if (s.nodeOf t).formatter.isSome then []
      else match s.kindOf t with
        | .unresolved => [s.assembly.typeName t]
        | .collection _ => parts
        | _ => [] := by
    intro parts
    rw [leavesAt, hnode]
    cases hkind : s.kindOf t <;> simp only [Setting.nodeOf_kind, hkind]
  cases t with
  | named symbol args =>
    rw [Assembly.typeName_named, bareLeaves, ← Assembly.typeName_named, hleaves]
    cases hkind : s.kindOf (.named symbol args) with
    | collection shape =>
      rw [Setting.nodeOf_elements, hkind, Setting.elementsOf, bareLeavesOfAll_eq_flatMap]
      simp only [List.flatMap_map, Setting.named_name]
    | _ => rfl
  | array element rank =>
    rw [Assembly.typeName_array, bareLeaves, ← Assembly.typeName_array, hleaves]
    cases hkind : s.kindOf (.array element rank) with
    | collection shape =>
      rw [Setting.nodeOf_elements, hkind, Setting.elementsOf]
      simp only [List.flatMap_cons, List.flatMap_nil, List.append_nil, Setting.named_name]
    | _ => rfl
  | param index name =>
    rw [Assembly.typeName_param, bareLeaves, ← Assembly.typeName_param index name, hleaves]
    rfl

/-- The types that the node of a closed type passes its value on to are closed: they are parts of a
collection or variants of a union. -/
theorem exists_of_mem_passedOn {s : Setting} {t : Ty} (hclosed : t.isClosed = true)
    {part : TypeName} (h : part ∈ passedOn (s.nodeOf t)) :
    ∃ r ∈ (s.nodeOf t).refs, r.name = part ∧ r.type.isClosed = true ∧
      ((∃ shape, s.kindOf t = .collection shape) ∧ r ∈ (s.nodeOf t).elements ∨
        s.kindOf t = .union false ∧ ∃ v ∈ (s.nodeOf t).variants, v.type = r) := by
  unfold passedOn at h
  rw [Setting.nodeOf_kind] at h
  split at h
  · rename_i shape hkind
    obtain ⟨r, hr, rfl⟩ := List.mem_map.mp h
    exact ⟨r, Node.mem_refs_of_mem_elements hr, rfl,
      Setting.isClosed_of_mem_elements hkind hclosed hr, .inl ⟨⟨shape, hkind⟩, hr⟩⟩
  · rename_i hkind
    obtain ⟨v, hv, rfl⟩ := List.mem_map.mp h
    exact ⟨v.type, Node.mem_refs_of_mem_variants hv, rfl, Setting.isClosed_of_mem_variants hv,
      .inr ⟨hkind, v, hv, rfl⟩⟩
  · simp at h

theorem findingsOf_union_eq_nil {asm : Assembly} {mapMode : Bool} {node : Node}
    (h : graph.findingsOf asm mapMode node = []) (hunion : node.kind.isUnion = true) :
    graph.variantFindings node = [] ∧ node.defects = [] := by
  unfold findingsOf at h
  simp only [hunion, if_true, List.append_eq_nil_iff, List.map_eq_nil_iff] at h
  exact ⟨h.1.1.2, h.2⟩

/-- Without findings the variants of a union are types that may be variants. -/
theorem isVariantType_of_findingsOf {asm : Assembly} {mapMode : Bool} {node : Node}
    (h : graph.findingsOf asm mapMode node = []) (hunion : node.kind.isUnion = true) {v : Variant}
    (hv : v ∈ node.variants) : (graph.node? v.type.name).any isVariantType = true := by
  obtain ⟨-, hunmarked⟩ := List.append_eq_nil_iff.mp (findingsOf_union_eq_nil h hunion).1
  rw [List.map_eq_nil_iff, List.filter_eq_nil_iff] at hunmarked
  simpa using hunmarked v hv

theorem isVariantType_nodeOf {s : Setting} {t : Ty} (hformatter : (s.nodeOf t).formatter = none)
    (h : isVariantType (s.nodeOf t) = true) :
    s.kindOf t ≠ .unresolved ∧ ∀ shape, s.kindOf t ≠ .collection shape := by
  unfold isVariantType at h
  rw [hformatter, Setting.nodeOf_kind] at h
  constructor
  · intro hkind
    simp [hkind] at h
  · intro shape hkind
    simp [hkind] at h

end TypeGraph

namespace Setting

variable {s : Setting} {t : Ty}

/-- An enumeration of a well-formed assembly says what its values are. -/
theorem elements_ne_nil_of_enumeration (hwf : s.assembly.WellFormed)
    (hkind : s.kindOf t = .enumeration) : (s.nodeOf t).elements ≠ [] := by
  obtain ⟨symbol, d, hsymbol, hd, henum⟩ := exists_enumeration hkind
  obtain ⟨u, hu⟩ := Option.isSome_iff_exists.mp ((hwf.defs symbol d hd).enumerated henum)
  have hmem : s.named u ∈ (s.nodeOf t).elements :=
    mem_nodeOf_elements_iff.mpr (.inr ⟨hkind, symbol, d, u, hsymbol, hd, hu, rfl⟩)
  exact List.ne_nil_of_mem hmem

/-- Of the closed types that are not blocked, only those without kind and formatter have no full
strategy. -/
theorem kindOf_eq_unresolved (hwf : s.assembly.WellFormed) (hclosed : t.isClosed = true)
    {c : StrategySetting} (hsound : c.verdict.isBlocked (s.nodeOf t).name = false)
    (h : c.fullStrategy (s.nodeOf t) = .unresolved) :
    (s.nodeOf t).formatter = none ∧ s.kindOf t = .unresolved := by
  unfold StrategySetting.fullStrategy at h
  rw [hsound, if_neg Bool.false_ne_true] at h
  cases hformatter : (s.nodeOf t).formatter with
  | some custom =>
    rw [hformatter] at h
    simp at h
  | none =>
    refine ⟨rfl, ?_⟩
    rw [hformatter, nodeOf_kind] at h
    match hkind : s.kindOf t with
    | .unresolved => rfl
    | .builtin _ | .assumed | .union false => simp [hkind, StrategySetting.unionStrategy] at h
    | .object keysAsNames false =>
      rw [hkind] at h
      unfold StrategySetting.objectStrategy at h
      dsimp only at h
      split at h <;> simp at h
    | .object keysAsNames true =>
      simpa [hclosed] using isOpen_eq (.inl ⟨keysAsNames, hkind⟩)
    | .union true => simpa [hclosed] using isOpen_eq (.inr hkind)
    | .enumeration =>
      rw [hkind] at h
      have helements := elements_ne_nil_of_enumeration hwf hkind
      cases hlist : (s.nodeOf t).elements with
      | nil => exact (helements hlist).elim
      | cons r rest =>
        rw [hlist] at h
        simp at h
    | .collection shape =>
      rw [hkind] at h
      rcases StrategySetting.collectionStrategy_cases c.graph shape
        ((s.nodeOf t).elements.map (·.name)) with ⟨formatter, heq⟩ | heq <;> simp [heq] at h

/-- The elements of a collection are the element of an array or arguments of the type. -/
theorem isPart_of_mem_elements {shape : CollectionShape}
    (hkind : s.kindOf t = .collection shape) {r : NamedType} (hr : r ∈ (s.nodeOf t).elements) :
    ∃ u, r = s.named u ∧ ((∃ rank, t = .array u rank) ∨ u ∈ t.args) := by
  rcases mem_nodeOf_elements_iff.mp hr with
    ⟨_, -, ⟨element, rank, rfl, rfl⟩ | ⟨u, hu, rfl⟩⟩ | ⟨henum, -⟩
  · exact ⟨element, rfl, .inl ⟨rank, rfl⟩⟩
  · exact ⟨u, rfl, .inr hu⟩
  · simp [hkind] at henum

/-- The elements of a collection are named types, smaller than the collection. -/
theorem exists_of_mem_elements {shape : CollectionShape}
    (hkind : s.kindOf t = .collection shape) {r : NamedType} (hr : r ∈ (s.nodeOf t).elements) :
    ∃ u, r = s.named u ∧ sizeOf u < sizeOf t := by
  obtain ⟨u, rfl, ⟨rank, rfl⟩ | hu⟩ := isPart_of_mem_elements hkind hr
  all_goals refine ⟨u, rfl, ?_⟩
  · rw [Ty.array.sizeOf_spec]
    omega
  · cases t with
    | named symbol args =>
      have hlt := List.sizeOf_lt_of_mem hu
      rw [Ty.args] at hlt
      rw [Ty.named.sizeOf_spec]
      omega
    | array element rank => simp [Ty.args] at hu
    | param index name => simp [Ty.args] at hu

/-- The name of an element is smaller than that of its collection. -/
theorem sizeOf_lt_of_mem_elements {shape : CollectionShape}
    (hkind : s.kindOf t = .collection shape) {r : NamedType} (hr : r ∈ (s.nodeOf t).elements) :
    sizeOf r.name < sizeOf (s.assembly.typeName t) := by
  obtain ⟨u, rfl, ⟨rank, rfl⟩ | hu⟩ := isPart_of_mem_elements hkind hr
  · rw [Assembly.typeName_array, TypeName.array.sizeOf_spec, named_name]
    omega
  · cases t with
    | named symbol args =>
      have hlt := List.sizeOf_lt_of_mem (List.mem_map_of_mem (f := s.assembly.typeName) hu)
      rw [Ty.args] at hlt
      rw [Assembly.typeName_named, TypeName.named.sizeOf_spec, named_name]
      omega
    | array element rank => simp [Ty.args] at hu
    | param index name => simp [Ty.args] at hu

end Setting

namespace Setting.Analyzed

variable {s : Setting} {a : Analysis}

/-- A part of a closed type is a closed type: an element of a collection, or a type that may be a
variant. -/
theorem HasNode.part (h : Analyzed s a) {t : Ty} (ht : HasNode s a t) {part : TypeName}
    (hpart : part ∈ (a.choices s).parts (s.nodeOf t)) :
    (s.nodeOf t).formatter = none ∧ ∃ u, HasNode s a u ∧ s.assembly.typeName u = part ∧
      ((∃ shape, s.kindOf t = .collection shape) ∧ s.named u ∈ (s.nodeOf t).elements ∨
        s.kindOf t = .union false ∧ TypeGraph.isVariantType (s.nodeOf u) = true) := by
  unfold StrategySetting.parts at hpart
  split at hpart
  · simp at hpart
  rename_i hnot
  simp only [Bool.or_eq_true, not_or, Option.isSome_iff_ne_none, ne_eq, not_not] at hnot
  obtain ⟨hsound, hformatter⟩ := hnot
  obtain ⟨r, hr, rfl, hclosed, hcases⟩ := TypeGraph.exists_of_mem_passedOn ht.isClosed hpart
  obtain ⟨hnode, hnamed⟩ := h.hasNode_of_mem_refs ht.node hr hclosed
  have hname : r.name = s.assembly.typeName r.type := congrArg NamedType.name hnamed
  refine ⟨hformatter, r.type, hnode, hname.symm, ?_⟩
  rcases hcases with ⟨hkind, helement⟩ | ⟨hkind, v, hv, rfl⟩
  · exact .inl ⟨hkind, hnamed ▸ helement⟩
  · refine .inr ⟨hkind, ?_⟩
    have hfindings := TypeGraph.findingsOf_eq_nil ht.node
      (h.isBlocked_eq_false_iff.mp (Bool.eq_false_iff.mpr hsound))
    have hvariant := TypeGraph.isVariantType_of_findingsOf hfindings
      (by rw [nodeOf_kind, hkind]; rfl) hv
    rw [hname, hnode.node] at hvariant
    exact hvariant

/-- The elements of a closed collection have nodes. -/
theorem HasNode.element (h : Analyzed s a) {t u : Ty} (ht : HasNode s a t) {shape : CollectionShape}
    (hkind : s.kindOf t = .collection shape) (hu : s.named u ∈ (s.nodeOf t).elements) :
    HasNode s a u :=
  (h.hasNode_of_mem_refs ht.node (Node.mem_refs_of_mem_elements hu)
    (isClosed_of_mem_elements hkind ht.isClosed hu)).1

/-- The leaves without formatter of a type are none exactly when it is not bare. -/
theorem bareLeaves_eq_nil_iff (h : Analyzed s a) {t : Ty} (ht : HasNode s a t) :
    a.graph.bareLeaves (s.assembly.typeName t) = [] ↔ ¬ s.IsBare t := by
  -- The elements of a collection are parts of its type, hence smaller.
  induction hsize : sizeOf t using Nat.strong_induction_on generalizing t with
  | _ size ih =>
    subst hsize
    rw [TypeGraph.bareLeaves_typeName ht.node]
    cases hformatter : (s.nodeOf t).formatter with
    | some custom =>
      refine iff_of_true rfl ?_
      rintro (⟨-, hnone⟩ | ⟨-, hnone, -, -⟩) <;> simp [hformatter] at hnone
    | none =>
      match hkind : s.kindOf t with
      | .unresolved => exact iff_of_false (by simp) fun hnot => hnot (.leaf hkind hformatter)
      | .collection shape =>
        have helements : (∀ r ∈ (s.nodeOf t).elements, a.graph.bareLeaves r.name = []) ↔
            ∀ u, s.named u ∈ (s.nodeOf t).elements → ¬ s.IsBare u := by
          constructor
          · intro hall u hu
            obtain ⟨v, hv, hsmaller⟩ := exists_of_mem_elements hkind hu
            obtain rfl : u = v := congrArg NamedType.type hv
            exact (ih _ hsmaller (ht.element h hkind hu) rfl).mp (hall _ hu)
          · intro hall r hr
            obtain ⟨u, rfl, hsmaller⟩ := exists_of_mem_elements hkind hr
            exact (ih _ hsmaller (ht.element h hkind hr) rfl).mpr (hall u hr)
        simp only [Option.isSome_none, Bool.false_eq_true, if_false, List.flatMap_eq_nil_iff,
          helements]
        constructor
        · rintro hall (⟨hleaf, -⟩ | ⟨-, -, hu, hbare⟩)
          · simp [hkind] at hleaf
          · exact hall _ hu hbare
        · exact fun hnot u hu hbare => hnot (.element hkind hformatter hu hbare)
      | .builtin _ | .assumed | .enumeration | .object _ _ | .union _ =>
        refine iff_of_true rfl ?_
        rintro (⟨hleaf, -⟩ | ⟨hleaf, -, -, -⟩) <;> simp [hkind] at hleaf

/-! ### Types that are not bare -/

/-- A type that passes its value on to no blocked type gets a formatter if it is not bare, or if it
may be a variant. -/
theorem not_unresolvable (h : Analyzed s a) {name : TypeName}
    (hunresolvable : (a.choices s).Unresolvable name)
    (hsound : ∀ other, a.graph.PassesOnTo name other →
      ¬ TypeGraph.Blocked s.assembly s.options.mapMode a.graph other)
    {t : Ty} (ht : HasNode s a t) (hname : s.assembly.typeName t = name)
    (hleaves : ¬ s.IsBare t ∨ TypeGraph.isVariantType (s.nodeOf t) = true) : False := by
  induction hunresolvable generalizing t with
  | @self name node hnode hfull =>
    subst hname
    obtain rfl := ht.eq_node hnode
    have hnotBlocked := h.isBlocked_eq_false_iff.mpr (hsound _ .refl)
    obtain ⟨hformatter, hkind⟩ :=
      kindOf_eq_unresolved h.complete.wellFormed ht.isClosed hnotBlocked hfull
    rcases hleaves with hnot | hvariant
    · exact hnot (.leaf hkind hformatter)
    · exact (TypeGraph.isVariantType_nodeOf hformatter hvariant).1 hkind
  | @part name part node hnode hpart _ ih =>
    subst hname
    obtain rfl := ht.eq_node hnode
    obtain ⟨hformatter, u, hu, huname, hcases⟩ := ht.part h hpart
    have hpasses : a.graph.Passes (s.assembly.typeName t) part := by
      refine ⟨_, ht.node, hformatter, ?_⟩
      unfold StrategySetting.parts at hpart
      split at hpart
      · simp at hpart
      · exact hpart
    refine ih (fun other hother => hsound other (.head hpasses hother)) hu huname ?_
    rcases hcases with ⟨⟨shape, hkind⟩, helement⟩ | ⟨-, hvariant⟩
    · rcases hleaves with hnot | hvariant
      · exact .inl fun hbare => hnot (.element hkind hformatter helement hbare)
      · exact ((TypeGraph.isVariantType_nodeOf hformatter hvariant).2 shape hkind).elim
    · exact .inr hvariant

/-! ### Bare types -/

/-- Nothing that a collection has for a part comes back to it: elements are smaller, and the
variants of a union are not collections. -/
theorem not_leadsTo_collection (h : Analyzed s a) {t : Ty} (ht : HasNode s a t)
    {shape : CollectionShape} (hkind : s.kindOf t = .collection shape)
    (hformatter : (s.nodeOf t).formatter = none) {u : Ty} (hu : HasNode s a u)
    (hsmaller : sizeOf u < sizeOf t) :
    ¬ (a.choices s).LeadsTo (s.assembly.typeName u) (s.assembly.typeName t) := by
  intro hleads
  -- On the way down types get smaller until it comes to a variant, and from there on all are.
  have hinvariant : ∀ name, (a.choices s).LeadsTo (s.assembly.typeName u) name →
      ∃ w, HasNode s a w ∧ s.assembly.typeName w = name ∧
        (sizeOf w < sizeOf t ∨ TypeGraph.isVariantType (s.nodeOf w) = true) := by
    intro name hname
    induction hname with
    | refl => exact ⟨u, hu, rfl, .inl hsmaller⟩
    | tail _ hlast ih =>
      obtain ⟨w, hw, rfl, hcases⟩ := ih
      obtain ⟨node, hnode, hpart⟩ := hlast
      obtain rfl := hw.eq_node hnode
      obtain ⟨hwformatter, v, hv, hvname, ⟨⟨wshape, hwkind⟩, helement⟩ | ⟨-, hvariant⟩⟩ :=
        hw.part h hpart
      · refine ⟨v, hv, hvname, .inl ?_⟩
        rcases hcases with hsize | hvariant
        · obtain ⟨v', hv', hlt⟩ := exists_of_mem_elements hwkind helement
          obtain rfl : v = v' := congrArg NamedType.type hv'
          omega
        · exact ((TypeGraph.isVariantType_nodeOf hwformatter hvariant).2 wshape hwkind).elim
      · exact ⟨v, hv, hvname, .inr hvariant⟩
  obtain ⟨w, hw, hname, hcases⟩ := hinvariant _ hleads
  obtain rfl : w = t := h.complete.wellFormed.distinct.eq_of_typeName_eq hw.fits ht.fits
    hw.isClosed hname
  rcases hcases with hsize | hvariant
  · omega
  · exact (TypeGraph.isVariantType_nodeOf hformatter hvariant).2 shape hkind

/-- A bare type firmly gets no strategy. -/
theorem firmlyUnresolvable (h : Analyzed s a) {t : Ty} (ht : HasNode s a t) (hbare : s.IsBare t) :
    (a.choices s).FirmlyUnresolvable (s.assembly.typeName t) := by
  induction hbare with
  | @leaf t hkind hformatter =>
    refine .self ht.node ?_
    rw [StrategySetting.fullStrategy, hformatter, nodeOf_kind, hkind]
    exact ite_self _
  | @element t u shape hkind hformatter helement _ ih =>
    cases hblocked : (a.choices s).verdict.isBlocked (s.nodeOf t).name with
    | true => exact .self ht.node (by rw [StrategySetting.fullStrategy, if_pos hblocked])
    | false =>
      have hu := ht.element h hkind helement
      obtain ⟨v, hv, hsmaller⟩ := exists_of_mem_elements hkind helement
      obtain rfl : u = v := congrArg NamedType.type hv
      refine .part ht.node ?_ (not_leadsTo_collection h ht hkind hformatter hu hsmaller) (ih hu)
      rw [StrategySetting.parts, hblocked, hformatter, if_neg (by simp), TypeGraph.passedOn,
        nodeOf_kind, hkind]
      exact List.mem_map.mpr ⟨_, helement, rfl⟩

/-- A closed type that passes its value on to no blocked type gets a formatter exactly when it is
not bare. -/
theorem formats_iff (h : Analyzed s a) {t : Ty} (ht : HasNode s a t)
    (hsound : ∀ other, a.graph.PassesOnTo (s.assembly.typeName t) other →
      ¬ TypeGraph.Blocked s.assembly s.options.mapMode a.graph other) :
    a.Formats (s.assembly.typeName t) ↔ ¬ s.IsBare t := by
  have hname := TypeGraph.mem_names_of_node? ht.node
  rw [Analysis.Formats, h.strategyOf?_eq hname]
  constructor
  · rintro ⟨strategy, heq, hsome⟩ hbare
    obtain rfl := Option.some.inj heq
    exact hsome (firmlyUnresolvable h ht hbare).strategyAt_eq
  · intro hnot
    refine ⟨_, rfl, fun hnone => ?_⟩
    have hunresolvable := ((StrategySetting.strategyAt_eq_unresolved_iff hname).mp hnone).1
    exact not_unresolvable h hunresolvable hsound ht rfl (.inl hnot)

/-- Where nothing is blocked, a closed type that is not bare gets its full strategy. -/
theorem strategyOf?_eq_fullStrategy (h : Analyzed s a) {t : Ty} (ht : HasNode s a t)
    (hsound : ∀ name, ¬ TypeGraph.Blocked s.assembly s.options.mapMode a.graph name)
    (hbare : ¬ s.IsBare t) :
    a.strategyOf? (s.assembly.typeName t) = some ((a.choices s).fullStrategy (s.nodeOf t)) := by
  obtain ⟨strategy, hstrategy, hsome⟩ := (h.formats_iff ht fun _ _ => hsound _).mpr hbare
  obtain ⟨u, hu, hname, hnode, rfl⟩ := h.exists_fullStrategy hstrategy hsome
  rw [hname] at hnode
  rw [hstrategy, ht.eq_node hnode]

/-- Where nothing is blocked, a closed union that names no formatter is written as one. -/
theorem strategyOf?_union (h : Analyzed s a) {t : Ty} (ht : HasNode s a t)
    (hsound : ∀ name, ¬ TypeGraph.Blocked s.assembly s.options.mapMode a.graph name)
    (hkind : s.kindOf t = .union false) (hformatter : (s.nodeOf t).formatter = none) :
    a.strategyOf? (s.assembly.typeName t) =
      some (StrategySetting.unionStrategy (s.nodeOf t).variants) := by
  have hbare : ¬ s.IsBare t := by
    rintro (⟨hleaf, -⟩ | ⟨hcollection, -, -, -⟩)
    · simp [hkind] at hleaf
    · simp [hkind] at hcollection
  have hblocked := h.isBlocked_eq_false_iff.mpr (hsound (s.assembly.typeName t))
  rw [h.strategyOf?_eq_fullStrategy ht hsound hbare, StrategySetting.fullStrategy, hblocked,
    hformatter, nodeOf_kind, hkind]
  rfl

end Setting.Analyzed

end FormatterPlan
