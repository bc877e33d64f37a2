import FormatterPlan.Proofs.ExtendedLoading

/-! What a name stands for.  By the rule of precedence a metadata name counts before a full name and
a full name before a last segment, and a full name or a last segment has to be that of a single
declaration.  A look-up takes full names and last segments together, so it departs from the rule,
and finds nothing, exactly when a name is the full name of one declaration and the last segment of
others. -/

namespace FormatterPlan

namespace Assembly

variable {asm : Assembly} {name : String} {symbol : Symbol}

/-- Whether a symbol is that of a declaration with a property, and of the only one. -/
structure IsOnly (asm : Assembly) (p : TypeDef → Prop) (symbol : Symbol) : Prop where
  declared : ∃ d, asm.def? symbol = some d ∧ p d
  unique : ∀ other d, asm.def? other = some d → p d → other = symbol

/-- The declaration that a name stands for by the rule of precedence.  Of several declarations with
one metadata name it is the last. -/
inductive StandsFor (asm : Assembly) (name : String) : Option Symbol → Prop
  | metadataName {symbol : Symbol} (h : asm.HasMetadataName name symbol)
      (hlast : ∀ other, asm.HasMetadataName name other → other.index ≤ symbol.index) :
      StandsFor asm name (some symbol)
  | fullName {symbol : Symbol} (hmetadata : ∀ other, ¬ asm.HasMetadataName name other)
      (h : asm.IsOnly (·.name = name) symbol) : StandsFor asm name (some symbol)
  | lastSegment {symbol : Symbol} (hmetadata : ∀ other, ¬ asm.HasMetadataName name other)
      (hfull : ∀ other, ¬ asm.IsOnly (·.name = name) other)
      (h : asm.IsOnly (·.simpleName = name) symbol) : StandsFor asm name (some symbol)
  | nothing (hmetadata : ∀ other, ¬ asm.HasMetadataName name other)
      (hfull : ∀ other, ¬ asm.IsOnly (·.name = name) other)
      (hlast : ∀ other, ¬ asm.IsOnly (·.simpleName = name) other) : StandsFor asm name none

/-- Whether a name is no metadata name, but the full name of a single declaration and the last
segment of another one. -/
structure IsContested (asm : Assembly) (name : String) : Prop where
  metadataName : ∀ other, ¬ asm.HasMetadataName name other
  rivals : ∃ symbol, asm.IsOnly (·.name = name) symbol ∧
    ∃ other d, other ≠ symbol ∧ asm.def? other = some d ∧ d.simpleName = name

/-! ### All symbols -/

/-- All symbols of an assembly, in the order of look-ups. -/
def symbols (asm : Assembly) : List Symbol := asm.userSymbols ++ asm.preludeSymbols

theorem mem_symbols_of_def? {d : TypeDef} (h : asm.def? symbol = some d) :
    symbol ∈ asm.symbols := by
  have hlt := (Array.getElem?_eq_some_iff.mp h).1
  rw [symbols, List.mem_append, mem_userSymbols_iff]
  by_cases hprelude : symbol.index < asm.preludeSize
  · exact .inr (List.mem_map.mpr ⟨symbol.index, List.mem_range.mpr hprelude, rfl⟩)
  · exact .inl ⟨Nat.le_of_not_lt hprelude, hlt⟩

theorem nodup_symbols (asm : Assembly) : asm.symbols.Nodup := by
  have hinjective : Function.Injective Symbol.mk := fun _ _ h => Symbol.mk.inj h
  refine List.nodup_append.mpr ⟨(List.nodup_range' _).map hinjective,
    List.nodup_range.map hinjective, ?_⟩
  rintro user huser prelude hprelude rfl
  obtain ⟨index, hindex, rfl⟩ := List.mem_map.mp hprelude
  exact absurd (List.mem_range.mp hindex) (Nat.not_lt.mpr (mem_userSymbols_iff.mp huser).1)

/-- A symbol is the only one with a property when a search through all symbols finds just it. -/
theorem filter_symbols_eq_singleton_iff {p : TypeDef → Bool} :
    asm.symbols.filter (fun symbol => (asm.def? symbol).any p) = [symbol] ↔
      asm.IsOnly (p · = true) symbol := by
  have hmem : ∀ other, other ∈ asm.symbols.filter (fun symbol => (asm.def? symbol).any p) ↔
      ∃ d, asm.def? other = some d ∧ p d = true := by
    intro other
    rw [List.mem_filter, Option.any_eq_true]
    exact ⟨fun h => h.2, fun ⟨d, hd, hp⟩ => ⟨mem_symbols_of_def? hd, d, hd, hp⟩⟩
  constructor
  · intro hsingle
    rw [hsingle] at hmem
    exact ⟨(hmem symbol).mp List.mem_cons_self,
      fun other d hd hp => List.mem_singleton.mp ((hmem other).mpr ⟨d, hd, hp⟩)⟩
  · rintro ⟨hdeclared, hunique⟩
    refine List.perm_singleton.mp ((List.perm_ext_iff_of_nodup (asm.nodup_symbols.filter _)
      (List.nodup_singleton symbol)).mpr fun other => ?_)
    rw [hmem, List.mem_singleton]
    constructor
    · rintro ⟨d, hd, hp⟩
      exact hunique other d hd hp
    · rintro rfl
      exact hdeclared

/-! ### Names -/

theorem byMetadataName?_eq_none_iff :
    asm.byMetadataName? name = none ↔ ∀ other, ¬ asm.HasMetadataName name other := by
  constructor
  · rintro hnone other ⟨d, hd, hname⟩
    rw [byMetadataName?, findLast?, Option.map_eq_none_iff, List.find?_eq_none] at hnone
    have hmem : (d, other.index) ∈ asm.defs.toList.zipIdx.reverse := by
      rw [List.mem_reverse, List.mk_mem_zipIdx_iff_getElem?, Array.getElem?_toList]
      exact hd
    simpa [hname] using hnone _ hmem
  · intro h
    refine Option.eq_none_iff_forall_ne_some.mpr fun found hfound => ?_
    exact h found (byMetadataName?_eq_some_iff.mp hfound).1

/-- What a name that is no metadata name finds. -/
theorem lookup_eq_some_iff (hmetadata : ∀ other, ¬ asm.HasMetadataName name other) :
    asm.lookup name = some symbol ↔
      asm.IsOnly (fun d => d.name = name ∨ d.simpleName = name) symbol := by
  have hnamed : asm.isNamed name = fun symbol =>
      (asm.def? symbol).any fun d => d.name == name || d.simpleName == name := by
    funext symbol
    rw [isNamed]
    cases asm.def? symbol <;> rfl
  have hsingle : asm.lookup name = some symbol ↔
      asm.symbols.filter (asm.isNamed name) = [symbol] := by
    rw [lookup, byMetadataName?_eq_none_iff.mpr hmetadata, symbols]
    dsimp only
    split
    · rename_i heq
      rw [heq]
      simp
    · rename_i hne
      simpa using hne symbol
  rw [hsingle, hnamed, filter_symbols_eq_singleton_iff]
  simp only [Bool.or_eq_true, beq_iff_eq]

/-- A last segment has no dot, so it is the last segment of all declarations of that full name. -/
theorem simpleName_eq_of_name_eq {d e : TypeDef} (hsimple : d.simpleName = name)
    (hname : e.name = name) : e.simpleName = name := by
  have hdot : '.' ∉ name.toList := by
    rw [← hsimple]
    exact dot_notMem_lastSegment d.name
  rw [TypeDef.simpleName, hname, Text.lastSegment, splitLast_eq_none_iff.mpr hdot]

/-- Where no full name decides, a name finds what it stands for as a last segment. -/
theorem isOnly_or_iff (hfull : ∀ other, ¬ asm.IsOnly (·.name = name) other) :
    asm.IsOnly (fun d => d.name = name ∨ d.simpleName = name) symbol ↔
      asm.IsOnly (·.simpleName = name) symbol := by
  constructor
  · rintro ⟨⟨d, hd, hname | hsimple⟩, hunique⟩
    · exact (hfull symbol ⟨⟨d, hd, hname⟩,
        fun other e he hother => hunique other e he (.inl hother)⟩).elim
    · exact ⟨⟨d, hd, hsimple⟩, fun other e he hother => hunique other e he (.inr hother)⟩
  · rintro ⟨⟨d, hd, hsimple⟩, hunique⟩
    refine ⟨⟨d, hd, .inr hsimple⟩, fun other e he hother => hunique other e he ?_⟩
    exact hother.elim (simpleName_eq_of_name_eq hsimple) id

/-- Where a full name decides, a name finds its declaration unless others have it as their last
segment, and then it finds nothing. -/
theorem lookup_of_isOnly (hmetadata : ∀ other, ¬ asm.HasMetadataName name other)
    (h : asm.IsOnly (·.name = name) symbol) :
    asm.lookup name = some symbol ∧ ¬ asm.IsContested name ∨
      asm.lookup name = none ∧ asm.IsContested name := by
  obtain ⟨⟨d, hd, hname⟩, hunique⟩ := h
  by_cases hrival : ∃ other e, other ≠ symbol ∧ asm.def? other = some e ∧ e.simpleName = name
  · refine .inr ⟨Option.eq_none_iff_forall_ne_some.mpr fun found hfound => ?_,
      hmetadata, symbol, ⟨⟨d, hd, hname⟩, hunique⟩, hrival⟩
    obtain ⟨other, e, hne, he, hsimple⟩ := hrival
    have honly := ((lookup_eq_some_iff hmetadata).mp hfound).unique
    exact hne ((honly other e he (.inr hsimple)).trans (honly symbol d hd (.inl hname)).symm)
  · refine .inl ⟨(lookup_eq_some_iff hmetadata).mpr ⟨⟨d, hd, .inl hname⟩, ?_⟩, ?_⟩
    · rintro other e he (hother | hsimple)
      · exact hunique other e he hother
      · by_contra hne
        exact hrival ⟨other, e, hne, he, hsimple⟩
    · rintro ⟨-, owner, honly, other, e, hne, he, hsimple⟩
      obtain rfl := honly.unique symbol d hd hname
      exact hrival ⟨other, e, hne, he, hsimple⟩

/-- A look-up finds what the name stands for exactly when the name is not contested, and a contested
name finds nothing. -/
theorem lookup_standsFor_iff (asm : Assembly) (name : String) :
    (asm.StandsFor name (asm.lookup name) ↔ ¬ asm.IsContested name) ∧
      (asm.IsContested name → asm.lookup name = none) := by
  cases hfound : asm.byMetadataName? name with
  | some symbol =>
    obtain ⟨hname, hlast⟩ := byMetadataName?_eq_some_iff.mp hfound
    have hcontested : ¬ asm.IsContested name := fun h => h.metadataName symbol hname
    rw [lookup, hfound]
    exact ⟨iff_of_true (.metadataName hname hlast) hcontested, fun h => (hcontested h).elim⟩
  | none =>
    have hmetadata := byMetadataName?_eq_none_iff.mp hfound
    by_cases hfull : ∃ symbol, asm.IsOnly (·.name = name) symbol
    · obtain ⟨symbol, honly⟩ := hfull
      rcases lookup_of_isOnly hmetadata honly with ⟨hsome, hcontested⟩ | ⟨hnone, hcontested⟩
      · rw [hsome]
        exact ⟨iff_of_true (.fullName hmetadata honly) hcontested, fun h => (hcontested h).elim⟩
      · refine ⟨iff_of_false (fun h => ?_) (not_not_intro hcontested), fun _ => hnone⟩
        rw [hnone] at h
        cases h with
        | nothing _ hother _ => exact hother symbol honly
    · have hfull := not_exists.mp hfull
      have hcontested : ¬ asm.IsContested name := by
        rintro ⟨-, owner, honly, -⟩
        exact hfull owner honly
      refine ⟨iff_of_true ?_ hcontested, fun h => (hcontested h).elim⟩
      cases hsegment : asm.lookup name with
      | some symbol =>
        exact .lastSegment hmetadata hfull
          ((isOnly_or_iff hfull).mp ((lookup_eq_some_iff hmetadata).mp hsegment))
      | none =>
        refine .nothing hmetadata hfull fun symbol honly => ?_
        have hsome := (lookup_eq_some_iff hmetadata).mpr ((isOnly_or_iff hfull).mpr honly)
        rw [hsegment] at hsome
        simp at hsome

/-! ### A full name that is also a last segment -/

/-- A generic class, and another class with the name of the first as its last segment. -/
def boxesDocument : Document where
  types := [
    { name := "Box", kind := .concreteClass, generics := ["T"] },
    { name := "App.Box", kind := .concreteClass }]

def boxesDefs : List TypeDef := [
  { name := "Box", kind := .concreteClass, generics := ["T"], base := none, underlying := none,
    attributes := [], members := [] },
  { name := "App.Box", kind := .concreteClass, generics := [], base := none, underlying := none,
    attributes := [], members := [] }]

theorem loads_boxesDocument : load [boxesDocument] = .ok (ofDefs boxesDefs) :=
  (Setting.loads_ofDefs (by decide +kernel) (toOption_eq_some_iff.mp (by decide +kernel)) {}).1

/-- The generic class is the only declaration with the full name, but the name does not find it. -/
theorem box_not_standsFor : load [boxesDocument] = .ok (ofDefs boxesDefs) ∧
    (ofDefs boxesDefs).IsOnly (·.name = "Box") ⟨96⟩ ∧
    (ofDefs boxesDefs).StandsFor "Box" (some ⟨96⟩) ∧
    (ofDefs boxesDefs).lookup "Box" = none ∧
    ¬ (ofDefs boxesDefs).StandsFor "Box" ((ofDefs boxesDefs).lookup "Box") := by
  have hmetadata := byMetadataName?_eq_none_iff.mp
    (show (ofDefs boxesDefs).byMetadataName? "Box" = none by decide +kernel)
  have honly : (ofDefs boxesDefs).IsOnly (·.name = "Box") ⟨96⟩ := by
    simpa using filter_symbols_eq_singleton_iff.mp
      (show (ofDefs boxesDefs).symbols.filter
        (fun symbol => ((ofDefs boxesDefs).def? symbol).any (·.name == "Box")) = [⟨96⟩] by
          decide +kernel)
  have hnone : (ofDefs boxesDefs).lookup "Box" = none := by decide +kernel
  refine ⟨loads_boxesDocument, honly, .fullName hmetadata honly, hnone, fun h => ?_⟩
  rw [hnone] at h
  cases h with
  | nothing _ hfull _ => exact hfull ⟨96⟩ honly

end Assembly

end FormatterPlan
