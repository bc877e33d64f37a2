import FormatterPlan.Proofs.RenumberedRoles

/-! Metadata names as keys.  Loading keeps names and arities apart, but a name may be written with
the mark of an arity.  Then a declaration without parameters has the metadata name of a generic one,
and what is looked up under that name is the later of the two.  Metadata names identify declarations
exactly when no declaration is named after another one in this way.  Rows of fixed formatters and of
attributes are always those of the prelude, and so are rows of collections unless the user names a
declaration after one. -/

namespace FormatterPlan

/-- Whether a declaration without parameters has the metadata name of a generic one as its name. -/
structure TypeDef.IsNamedAfter (d e : TypeDef) : Prop where
  plain : d.generics = []
  generic : e.generics ≠ []
  name : d.name = e.metadataName

theorem TypeDef.IsNamedAfter.metadataName_eq {d e : TypeDef} (h : d.IsNamedAfter e) :
    d.metadataName = e.metadataName := by
  rw [TypeDef.metadataName, h.plain, List.length_nil, FormatterPlan.metadataName, if_pos rfl,
    h.name]

/-- The attributes with a role, and their names. -/
def Roles.attributes (roles : Roles) : List (Option Symbol × String) := [
  (some roles.object, AttributeName.object), (roles.key, AttributeName.key),
  (roles.ignoreMember, AttributeName.ignoreMember),
  (roles.ignoreDataMember, AttributeName.ignoreDataMember),
  (roles.union, AttributeName.union), (roles.formatter, AttributeName.formatter)]

namespace Assembly

variable {asm : Assembly} {documents : List Document}

/-- Whether a symbol is that of a declaration of the prelude. -/
structure IsPrelude (asm : Assembly) (decl : TypeDecl) (symbol : Symbol) : Prop where
  before : symbol.index < asm.preludeSize
  def? : asm.def? symbol = some (plain decl)

/-- Whether metadata names tell declarations apart, those of the prelude included, so that each is
found under its metadata name and all roles are played by declarations of the prelude. -/
structure IdentifiesDeclarations (asm : Assembly) : Prop where
  distinct : ∀ a b d e, asm.def? a = some d → asm.def? b = some e →
    d.metadataName = e.metadataName → a = b
  found : ∀ symbol d, asm.def? symbol = some d →
    asm.lookup d.metadataName = some symbol ∧ asm.byMetadataName? d.metadataName = some symbol
  builtins : ∀ hidden roles, Roles.ofAssembly? asm hidden = some roles →
    ∀ row ∈ roles.builtins, asm.IsPrelude (Prelude.ofBuiltin row.2) row.1
  collections : ∀ hidden roles, Roles.ofAssembly? asm hidden = some roles →
    ∀ row ∈ roles.collections, asm.IsPrelude (Prelude.ofCollection row.2) row.1
  attributes : ∀ hidden roles, Roles.ofAssembly? asm hidden = some roles →
    ∀ row ∈ roles.attributes, ∀ symbol ∈ row.1, asm.IsPrelude (Prelude.ofAttribute row.2) symbol

/-! ### Equal metadata names -/

theorem isNamedAfter_of_metadataName_eq {d e : TypeDef} (hplain : d.generics = [])
    (hgeneric : e.generics ≠ []) (h : d.metadataName = e.metadataName) : d.IsNamedAfter e := by
  refine ⟨hplain, hgeneric, ?_⟩
  rwa [TypeDef.metadataName, hplain, List.length_nil, FormatterPlan.metadataName, if_pos rfl] at h

/-- Two declarations of one metadata name are named one after the other. -/
theorem Distinct.eq_or_isNamedAfter (hdistinct : asm.Distinct) {a b : Symbol} {d e : TypeDef}
    (hd : asm.def? a = some d) (he : asm.def? b = some e) (h : d.metadataName = e.metadataName) :
    a = b ∨ d.IsNamedAfter e ∨ e.IsNamedAfter d := by
  by_cases hplain : d.generics = [] <;> by_cases hplain' : e.generics = []
  · exact .inl (hdistinct.eq_of_metadataName hd he h (by simp [hplain, hplain']))
  · exact .inr (.inl (isNamedAfter_of_metadataName_eq hplain hplain' h))
  · exact .inr (.inr (isNamedAfter_of_metadataName_eq hplain' hplain h.symm))
  · exact .inl (hdistinct.eq_of_metadataName hd he h (by simp [hplain, hplain']))

/-! ### Declarations of the prelude -/

/-- What is found under a metadata name of the prelude is the declaration of the prelude, or one
that the user has named after it. -/
theorem isPrelude_or_isNamedAfter (hload : load documents = .ok asm) {decl : TypeDecl}
    (hdecl : decl ∈ Prelude.decls) {symbol : Symbol}
    (hfound : asm.byMetadataName? (metadataName decl.name decl.generics.length) = some symbol) :
    asm.IsPrelude decl symbol ∨ ∃ d, asm.def? symbol = some d ∧ d.IsNamedAfter (plain decl) := by
  obtain ⟨index, hindex⟩ := List.mem_iff_getElem?.mp hdecl
  have hprelude := def?_prelude hload hindex
  obtain ⟨d, hd, hname⟩ := exists_of_byMetadataName? hfound
  rcases (wellFormed_of_load hload).distinct.eq_or_isNamedAfter hd hprelude hname with
    rfl | hafter | hbefore
  · refine .inl ⟨?_, hprelude⟩
    rw [preludeSize_of_load hload]
    exact (List.getElem?_eq_some_iff.mp hindex).1
  · exact .inr ⟨d, hd, hafter⟩
  · -- No declaration of the prelude is named after another one, for none has a mark in its name.
    have hmark := arityMark_mem_metadataName d.name
      (mt List.eq_nil_of_length_eq_zero hbefore.generic)
    rw [← TypeDef.metadataName, ← hbefore.name] at hmark
    exact (Prelude.arityMark_notMem hdecl hmark).elim

/-- A declaration that is named after another one is not of the prelude. -/
theorem preludeSize_le_of_isNamedAfter (hload : load documents = .ok asm) {symbol : Symbol}
    {d e : TypeDef} (hd : asm.def? symbol = some d) (h : d.IsNamedAfter e) :
    asm.preludeSize ≤ symbol.index := by
  by_contra hlt
  rw [preludeSize_of_load hload, not_le] at hlt
  have hprelude := def?_prelude hload (List.getElem?_eq_getElem hlt)
  obtain rfl : d = _ := Option.some.inj (hd.symm.trans hprelude)
  have hmark := arityMark_mem_metadataName e.name (mt List.eq_nil_of_length_eq_zero h.generic)
  rw [← TypeDef.metadataName, ← h.name] at hmark
  exact Prelude.arityMark_notMem (List.getElem_mem hlt) hmark

/-- A metadata name of the prelude without a mark stands for the declaration of the prelude. -/
theorem isPrelude_of_generics_eq_nil (hload : load documents = .ok asm) {decl : TypeDecl}
    (hdecl : decl ∈ Prelude.decls) (hplain : decl.generics = []) {symbol : Symbol}
    (hfound : asm.byMetadataName? decl.name = some symbol) : asm.IsPrelude decl symbol := by
  have hname : metadataName decl.name decl.generics.length = decl.name := by
    rw [hplain, List.length_nil, metadataName, if_pos rfl]
  rw [← hname] at hfound
  rcases isPrelude_or_isNamedAfter hload hdecl hfound with hprelude | ⟨d, -, hafter⟩
  · exact hprelude
  · exact (hafter.generic hplain).elim

/-! ### Rows -/

section

variable {hidden : List String} {roles : Roles}

theorem isPrelude_of_mem_builtins (hload : load documents = .ok asm)
    (hroles : Roles.ofAssembly? asm hidden = some roles) :
    ∀ row ∈ roles.builtins, asm.IsPrelude (Prelude.ofBuiltin row.2) row.1 := by
  intro row hrow
  obtain ⟨hb, hfound⟩ := (Roles.ofAssembly?_rows hroles).1 row hrow
  exact isPrelude_of_generics_eq_nil hload (Prelude.ofBuiltin_mem hb) rfl hfound

theorem isPrelude_of_mem_collections (hload : load documents = .ok asm)
    (hroles : Roles.ofAssembly? asm hidden = some roles) :
    ∀ row ∈ roles.collections, asm.IsPrelude (Prelude.ofCollection row.2) row.1 ∨
      ∃ d, asm.def? row.1 = some d ∧ d.IsNamedAfter (plain (Prelude.ofCollection row.2)) := by
  intro row hrow
  obtain ⟨hc, hfound⟩ := (Roles.ofAssembly?_rows hroles).2 row hrow
  rw [← (CollectionShape.metadataName_plain hc).1] at hfound
  exact isPrelude_or_isNamedAfter hload (Prelude.ofCollection_mem hc) hfound

theorem isPrelude_of_mem_attributes (hload : load documents = .ok asm)
    (hroles : Roles.ofAssembly? asm hidden = some roles) :
    ∀ row ∈ roles.attributes, ∀ symbol ∈ row.1,
      asm.IsPrelude (Prelude.ofAttribute row.2) symbol := by
  obtain ⟨object, hobject, hroles⟩ := Option.bind_eq_some_iff.mp hroles
  obtain rfl := Option.some.inj hroles
  intro row hrow symbol hsymbol
  have hname : row.2 ∈ AttributeName.all := List.mem_map_of_mem hrow
  have hresolved : (if hidden.contains row.2 then none else asm.byMetadataName? row.2) =
      some symbol := by
    simp only [Roles.attributes, List.mem_cons, List.not_mem_nil, or_false] at hrow
    rcases hrow with rfl | rfl | rfl | rfl | rfl | rfl
    · exact hobject.trans hsymbol
    all_goals exact hsymbol
  exact isPrelude_of_generics_eq_nil hload (Prelude.ofAttribute_mem hname) rfl
    (Option.ite_none_left_eq_some.mp hresolved).2

end

/-! ### Identification -/

theorem found_of_distinct (hdistinct : ∀ a b d e, asm.def? a = some d → asm.def? b = some e →
    d.metadataName = e.metadataName → a = b) {symbol : Symbol} {d : TypeDef}
    (hd : asm.def? symbol = some d) :
    asm.lookup d.metadataName = some symbol ∧ asm.byMetadataName? d.metadataName = some symbol := by
  have hfound : asm.byMetadataName? d.metadataName = some symbol := by
    refine byMetadataName?_eq_some_iff.mpr ⟨⟨d, hd, rfl⟩, ?_⟩
    rintro other ⟨e, he, hname⟩
    rw [hdistinct other symbol e d he hd hname]
  exact ⟨by rw [lookup, hfound], hfound⟩

/-- Metadata names identify declarations when none is named after another one. -/
theorem identifiesDeclarations_of_not_isNamedAfter (hload : load documents = .ok asm)
    (h : ∀ a b d e, asm.def? a = some d → asm.def? b = some e → ¬ d.IsNamedAfter e) :
    asm.IdentifiesDeclarations := by
  have hdistinct : ∀ a b d e, asm.def? a = some d → asm.def? b = some e →
      d.metadataName = e.metadataName → a = b := by
    intro a b d e hd he hname
    rcases (wellFormed_of_load hload).distinct.eq_or_isNamedAfter hd he hname with
      rfl | hafter | hafter
    · rfl
    · exact (h a b d e hd he hafter).elim
    · exact (h b a e d he hd hafter).elim
  constructor
  case distinct => exact hdistinct
  case found => exact fun symbol d => found_of_distinct hdistinct
  case builtins => exact fun hidden roles => isPrelude_of_mem_builtins hload
  case attributes => exact fun hidden roles => isPrelude_of_mem_attributes hload
  case collections =>
    intro hidden roles hroles row hrow
    have hc := ((Roles.ofAssembly?_rows hroles).2 row hrow).1
    obtain ⟨index, -, hindex⟩ := Prelude.exists_collection hc
    rcases isPrelude_of_mem_collections hload hroles row hrow with hprelude | ⟨d, hd, hafter⟩
    · exact hprelude
    · exact (h _ _ _ _ hd (def?_prelude hload hindex) hafter).elim

/-- Metadata names identify declarations exactly when none is named after another one.  In any case
the rows of fixed formatters and of attributes are those of the prelude, and a row of a collection
is that of the prelude or of a declaration that the user has named after it. -/
theorem identifiesDeclarations_iff (hload : load documents = .ok asm) :
    (asm.IdentifiesDeclarations ↔
      ∀ a b d e, asm.def? a = some d → asm.def? b = some e → ¬ d.IsNamedAfter e) ∧
      ∀ hidden roles, Roles.ofAssembly? asm hidden = some roles →
        (∀ row ∈ roles.builtins, asm.IsPrelude (Prelude.ofBuiltin row.2) row.1) ∧
        (∀ row ∈ roles.attributes, ∀ symbol ∈ row.1,
          asm.IsPrelude (Prelude.ofAttribute row.2) symbol) ∧
        ∀ row ∈ roles.collections, asm.IsPrelude (Prelude.ofCollection row.2) row.1 ∨
          asm.preludeSize ≤ row.1.index ∧ ∃ d, asm.def? row.1 = some d ∧
            d.IsNamedAfter (plain (Prelude.ofCollection row.2)) := by
  refine ⟨⟨fun h a b d e hd he hafter => ?_, identifiesDeclarations_of_not_isNamedAfter hload⟩,
    fun hidden roles hroles => ⟨isPrelude_of_mem_builtins hload hroles,
      isPrelude_of_mem_attributes hload hroles, fun row hrow => ?_⟩⟩
  · obtain rfl := h.distinct a b d e hd he hafter.metadataName_eq
    obtain rfl : d = e := Option.some.inj (hd.symm.trans he)
    exact hafter.generic hafter.plain
  · rcases isPrelude_of_mem_collections hload hroles row hrow with hprelude | ⟨d, hd, hafter⟩
    · exact .inl hprelude
    · exact .inr ⟨preludeSize_le_of_isNamedAfter hload hd hafter, d, hd, hafter⟩

/-! ### A declaration named after a collection -/

/-- A class without parameters under the metadata name of generic lists. -/
def namesakeDocument : Document where
  types := [{ name := "System.Collections.Generic.List\x601", kind := .concreteClass }]

def namesakeDef : TypeDef where
  name := "System.Collections.Generic.List\x601"
  kind := .concreteClass
  generics := []
  base := none
  underlying := none
  attributes := []
  members := []

theorem loads_namesakeDocument : load [namesakeDocument] = .ok (ofDefs [namesakeDef]) := by
  refine load_eq_ok_of_nodup (List.Nodup.of_map (fun key => (weight key.1, key.2)) ?_) ?_
  · rw [List.map_map]
    decide +kernel
  · exact toOption_eq_some_iff.mp (by decide +kernel)

/-- The class is named after generic lists. -/
theorem namesake_identification :
    load [namesakeDocument] = .ok (ofDefs [namesakeDef]) ∧
      (∃ e, (ofDefs [namesakeDef]).def? ⟨32⟩ = some e ∧ namesakeDef.IsNamedAfter e) ∧
      ((ofDefs [namesakeDef]).IdentifiesDeclarations ↔ ∀ a b d e,
        (ofDefs [namesakeDef]).def? a = some d → (ofDefs [namesakeDef]).def? b = some e →
          ¬ d.IsNamedAfter e) :=
  ⟨loads_namesakeDocument, ⟨_, rfl, rfl, by decide, by decide +kernel⟩,
    (identifiesDeclarations_iff loads_namesakeDocument).1⟩

/-- What is found under the metadata name of generic lists is the class. -/
theorem byMetadataName?_namesake :
    (ofDefs [namesakeDef]).byMetadataName? "System.Collections.Generic.List\x601" = some ⟨96⟩ := by
  refine byMetadataName?_eq_some_iff.mpr ⟨⟨namesakeDef, rfl, rfl⟩, ?_⟩
  rintro other ⟨d, hd, -⟩
  have hlt := (Array.getElem?_eq_some_iff.mp hd).1
  rw [show (ofDefs [namesakeDef]).defs.size = 97 from rfl] at hlt
  exact Nat.le_of_lt_succ hlt

/-- Where metadata names do not identify declarations, generic lists are no collection any more. -/
theorem not_identifiesDeclarations :
    load [namesakeDocument] = .ok (ofDefs [namesakeDef]) ∧
      (ofDefs [namesakeDef]).lookup "System.Collections.Generic.List\x601" = some ⟨96⟩ ∧
      (∃ roles, Roles.ofAssembly? (ofDefs [namesakeDef]) [] = some roles ∧
        roles.collection? ⟨32⟩ = none) ∧
      ¬ (ofDefs [namesakeDef]).IdentifiesDeclarations := by
  have hlist : ∃ d, (ofDefs [namesakeDef]).def? ⟨32⟩ = some d ∧
      d.metadataName = "System.Collections.Generic.List\x601" := ⟨_, rfl, by decide +kernel⟩
  obtain ⟨d, hd, hname⟩ := hlist
  refine ⟨loads_namesakeDocument, by rw [lookup, byMetadataName?_namesake], ?_, fun h => ?_⟩
  · obtain ⟨roles, hroles⟩ : ∃ roles, Roles.ofAssembly? (ofDefs [namesakeDef]) [] = some roles := by
      have hobject : ((ofDefs [namesakeDef]).byMetadataName? AttributeName.object).isSome := by
        decide +kernel
      obtain ⟨object, hobject⟩ := Option.isSome_iff_exists.mp hobject
      rw [Roles.ofAssembly?, Roles.of?]
      simp only [List.contains_nil, Bool.false_eq_true, if_false, hobject]
      exact ⟨_, rfl⟩
    refine ⟨roles, hroles, Option.eq_none_iff_forall_ne_some.mpr fun c hc => ?_⟩
    obtain ⟨-, hfound⟩ := (Roles.ofAssembly?_rows hroles).2 _ (mem_of_lookup_eq_some hc)
    obtain ⟨e, he, hsame⟩ := exists_of_byMetadataName? hfound
    obtain rfl : d = e := Option.some.inj (hd.symm.trans he)
    rw [← hsame, hname, byMetadataName?_namesake] at hfound
    have hsymbol : (⟨96⟩ : Symbol) = ⟨32⟩ := Option.some.inj hfound
    exact absurd hsymbol (by decide)
  · exact absurd (h.distinct ⟨32⟩ ⟨96⟩ d namesakeDef hd rfl hname) (by decide)

end Assembly

end FormatterPlan
