import FormatterPlan.Analysis
import FormatterPlan.Proofs.Lists
import FormatterPlan.Proofs.Loading

/-! The declarations of the prelude in a loaded assembly.  What has a fixed formatter is one of
them, for no other declaration has its name.  When the declarations all have different metadata
names, they load as soon as they can be resolved, and those of the prelude have the roles. -/

namespace FormatterPlan

namespace Assembly

variable {asm : Assembly}

/-- A declaration without attributes, base and members, resolved. -/
def plain (decl : TypeDecl) : TypeDef :=
  { name := decl.name, kind := decl.kind, generics := decl.generics, base := none,
    underlying := none, attributes := [], members := [] }

/-- The assembly of resolved declarations that follow those of the prelude. -/
def ofDefs (defs : List TypeDef) : Assembly :=
  ⟨(Prelude.decls.map plain ++ defs).toArray, Prelude.decls.length⟩

/-- A number for a name.  Numbers are quickly told apart. -/
def weight (name : String) : Nat :=
  name.toByteArray.data.toList.foldl (fun n (byte : UInt8) => n * 256 + byte.toNat) 0

/-- Whether documents declare types with different metadata names, none of them one of the
prelude. -/
abbrev Differ (documents : List Document) : Prop :=
  ((Prelude.decls ++ documents.flatMap (·.types)).map fun decl =>
    weight (metadataName decl.name decl.generics.length)).Nodup

/-- The first byte of a name. -/
def initial (name : String) : Option UInt8 := name.toByteArray.data.toList.head?

/-- The first bytes of the names of the prelude. -/
def preludeInitials : List (Option UInt8) := ["System", "MessagePack"].map initial

/-- Whether documents declare types with different metadata names, none of which starts like one of
the prelude.  This is seen without the names of the prelude. -/
abbrev Apart (documents : List Document) : Prop :=
  ((documents.flatMap (·.types)).map fun decl =>
    weight (metadataName decl.name decl.generics.length)).Nodup ∧
    ∀ decl ∈ documents.flatMap (·.types),
      initial (metadataName decl.name decl.generics.length) ∉ preludeInitials

/-- The metadata names of the prelude and of documents. -/
def metadataNames (documents : List Document) : List String :=
  (Prelude.decls ++ documents.flatMap (·.types)).map fun decl =>
    metadataName decl.name decl.generics.length

/-! ### Different names -/

theorem nodup_metadataNames_of_differ {documents : List Document} (h : Differ documents) :
    (metadataNames documents).Nodup := by
  refine List.Nodup.of_map weight ?_
  rw [metadataNames, List.map_map]
  exact h

theorem initial_mem_preludeInitials {decl : TypeDecl} (h : decl ∈ Prelude.decls) :
    initial (metadataName decl.name decl.generics.length) ∈ preludeInitials := by
  revert decl
  decide +kernel

theorem nodup_metadataNames_prelude : (metadataNames []).Nodup :=
  nodup_metadataNames_of_differ (by decide +kernel)

theorem nodup_metadataNames_of_apart {documents : List Document} (h : Apart documents) :
    (metadataNames documents).Nodup := by
  rw [metadataNames, List.map_append]
  refine List.nodup_append.mpr ⟨by simpa [metadataNames] using nodup_metadataNames_prelude,
    List.Nodup.of_map weight (by rw [List.map_map]; exact h.1), ?_⟩
  rintro name hprelude other huser rfl
  obtain ⟨decl, hdecl, rfl⟩ := List.mem_map.mp hprelude
  obtain ⟨user, hmem, hname⟩ := List.mem_map.mp huser
  exact h.2 user hmem (hname ▸ initial_mem_preludeInitials hdecl)

/-! ### Loading -/

theorem typeDef_of_mem_prelude (table : NameTable) {decl : TypeDecl} (h : decl ∈ Prelude.decls) :
    table.typeDef decl = .ok (plain decl) := by
  rw [Prelude.decls, List.mem_append, List.mem_append] at h
  rcases h with (h | h) | h
  · obtain ⟨b, -, rfl⟩ := List.mem_map.mp h
    unfold Prelude.ofBuiltin
    cases b.isValueType <;> rfl
  · obtain ⟨c, -, rfl⟩ := List.mem_map.mp h
    unfold Prelude.ofCollection
    cases CollectionShape.isInterfaceName c.name <;> cases c.isValueType <;> rfl
  · obtain ⟨name, -, rfl⟩ := List.mem_map.mp h
    rfl

theorem firstRepeated?_of_nodup {seen : List (String × Nat)} {decls : List TypeDecl}
    (hnodup : (decls.map fun decl => (decl.name, decl.generics.length)).Nodup)
    (hunseen : ∀ decl ∈ decls, (decl.name, decl.generics.length) ∉ seen) :
    NameTable.firstRepeated? seen decls = none := by
  induction decls generalizing seen with
  | nil => rfl
  | cons decl rest ih =>
    rw [List.map_cons, List.nodup_cons] at hnodup
    have hnew := hunseen decl List.mem_cons_self
    rw [NameTable.firstRepeated?, if_neg (by simpa using hnew)]
    refine ih hnodup.2 fun decl' hdecl' hmem => ?_
    rcases List.mem_cons.mp hmem with heq | hmem
    · exact hnodup.1 (heq ▸ List.mem_map_of_mem hdecl')
    · exact hunseen decl' (List.mem_cons_of_mem _ hdecl') hmem

/-- The declarations of the prelude and of documents, resolved. -/
theorem mapM_typeDef {documents : List Document} {defs : List TypeDef}
    (hdefs : (documents.flatMap (·.types)).mapM
      (NameTable.ofDecls (Prelude.decls ++ documents.flatMap (·.types))).typeDef = .ok defs) :
    (Prelude.decls ++ documents.flatMap (·.types)).mapM
      (NameTable.ofDecls (Prelude.decls ++ documents.flatMap (·.types))).typeDef =
        .ok (Prelude.decls.map plain ++ defs) :=
  mapM_append_eq_ok (fun _ => typeDef_of_mem_prelude _) hdefs

/-- Documents load as soon as their declarations are resolved, if no name is declared twice with one
arity. -/
theorem load_eq_ok_of_nodup {documents : List Document}
    (hnodup : ((Prelude.decls ++ documents.flatMap (·.types)).map fun decl =>
      (decl.name, decl.generics.length)).Nodup) {defs : List TypeDef}
    (hdefs : (documents.flatMap (·.types)).mapM
      (NameTable.ofDecls (Prelude.decls ++ documents.flatMap (·.types))).typeDef = .ok defs) :
    load documents = .ok (ofDefs defs) := by
  rw [load, Assembly.ofDecls, build, firstRepeated?_of_nodup hnodup (by simp), mapM_typeDef hdefs]
  rfl

/-- Documents load as soon as their declarations are resolved, if these and those of the prelude
have different metadata names. -/
theorem load_eq_ok {documents : List Document} (hdistinct : (metadataNames documents).Nodup)
    {defs : List TypeDef}
    (hdefs : (documents.flatMap (·.types)).mapM
      (NameTable.ofDecls (Prelude.decls ++ documents.flatMap (·.types))).typeDef = .ok defs) :
    load documents = .ok (ofDefs defs) := by
  refine load_eq_ok_of_nodup (List.Nodup.of_map (fun key => metadataName key.1 key.2) ?_) hdefs
  rw [List.map_map]
  exact hdistinct

/-! ### Roles -/

/-- A declaration is found under its metadata name if no other one has it. -/
theorem byMetadataName?_eq_some (hdistinct : (asm.defs.toList.map TypeDef.metadataName).Nodup)
    {symbol : Symbol} {d : TypeDef} (h : asm.def? symbol = some d) :
    asm.byMetadataName? d.metadataName = some symbol := by
  have hmem : (d, symbol.index) ∈ asm.defs.toList.zipIdx.reverse := by
    rw [List.mem_reverse, List.mk_mem_zipIdx_iff_getElem?, Array.getElem?_toList]
    exact h
  rw [byMetadataName?, findLast?]
  cases hfound : asm.defs.toList.zipIdx.reverse.find? fun entry =>
      entry.1.metadataName == d.metadataName with
  | none =>
    have hne := List.find?_eq_none.mp hfound _ hmem
    simp at hne
  | some entry =>
    obtain ⟨e, index⟩ := entry
    have hname : e.metadataName = d.metadataName := by simpa using List.find?_some hfound
    have hentry := List.mem_of_find?_eq_some hfound
    rw [List.mem_reverse, List.mk_mem_zipIdx_iff_getElem?] at hentry hmem
    have hindex : index = symbol.index := by
      have hlt := (List.getElem?_eq_some_iff.mp hentry).1
      refine (List.getElem?_inj (by simpa using hlt) hdistinct).mp ?_
      rw [List.getElem?_map, List.getElem?_map, hentry, hmem, Option.map_some, Option.map_some,
        hname]
    subst hindex
    rfl

theorem nodup_metadataName {documents : List Document}
    (hdistinct : (metadataNames documents).Nodup) {defs : List TypeDef}
    (hdefs : (documents.flatMap (·.types)).mapM
      (NameTable.ofDecls (Prelude.decls ++ documents.flatMap (·.types))).typeDef = .ok defs) :
    ((ofDefs defs).defs.toList.map TypeDef.metadataName).Nodup := by
  have hall := mapM_eq_ok_iff.mp (mapM_typeDef hdefs)
  have hnames : metadataNames documents =
      (Prelude.decls.map plain ++ defs).map TypeDef.metadataName := by
    refine List.forall₂_eq_eq_eq ▸ ?_
    rw [metadataNames, List.forall₂_map_left_iff, List.forall₂_map_right_iff]
    refine hall.imp fun decl d hd => ?_
    obtain ⟨hname, hgenerics, -⟩ := NameTable.typeDef_ok hd
    rw [TypeDef.metadataName, hname, hgenerics]
  rw [ofDefs, ← hnames]
  exact hdistinct

theorem preludeSize_of_load {documents : List Document} (hload : load documents = .ok asm) :
    asm.preludeSize = Prelude.decls.length := by
  rw [load, ofDecls] at hload
  obtain ⟨-, defs, -, rfl⟩ := build_ok hload
  rfl

theorem mem_userSymbols_iff {symbol : Symbol} :
    symbol ∈ asm.userSymbols ↔ asm.preludeSize ≤ symbol.index ∧ symbol.index < asm.defs.size := by
  rw [userSymbols, List.mem_map]
  constructor
  · rintro ⟨index, hindex, rfl⟩
    rw [List.mem_range'_1] at hindex
    constructor <;> dsimp only <;> omega
  · rintro ⟨hle, hlt⟩
    exact ⟨symbol.index, List.mem_range'_1.mpr (by omega), rfl⟩

/-- The declarations of the prelude are the first ones of a loaded assembly. -/
theorem def?_prelude {documents : List Document} (hload : load documents = .ok asm) {index : Nat}
    {decl : TypeDecl} (hdecl : Prelude.decls[index]? = some decl) :
    asm.def? ⟨index⟩ = some (plain decl) := by
  rw [load, ofDecls] at hload
  obtain ⟨-, defs, hdefs, rfl⟩ := build_ok hload
  have hall := mapM_eq_ok_iff.mp hdefs
  obtain ⟨hlt, rfl⟩ := List.getElem?_eq_some_iff.mp hdecl
  have hlt' : index < (Prelude.decls ++ documents.flatMap (·.types)).length := by
    rw [List.length_append]
    omega
  have hlt'' : index < defs.length := by rw [← hall.length_eq]; exact hlt'
  have hresolved := hall.get hlt' hlt''
  simp only [List.get_eq_getElem] at hresolved
  rw [List.getElem_append_left hlt, typeDef_of_mem_prelude _ (List.getElem_mem hlt),
    Except.ok.injEq] at hresolved
  rw [def?, List.getElem?_toArray, List.getElem?_eq_getElem hlt'', ← hresolved]

theorem exists_of_byMetadataName? {name : String} {symbol : Symbol}
    (h : asm.byMetadataName? name = some symbol) :
    ∃ d, asm.def? symbol = some d ∧ d.metadataName = name := by
  rw [byMetadataName?, findLast?, Option.map_eq_some_iff] at h
  obtain ⟨⟨d, index⟩, hfound, rfl⟩ := h
  have hmem := List.mem_of_find?_eq_some hfound
  rw [List.mem_reverse, List.mk_mem_zipIdx_iff_getElem?, Array.getElem?_toList] at hmem
  exact ⟨d, hmem, by simpa using List.find?_some hfound⟩

end Assembly

namespace Prelude

theorem ofBuiltin_mem {b : Builtin} (h : b ∈ Builtin.all) : ofBuiltin b ∈ decls := by
  rw [decls, List.append_assoc, List.mem_append]
  exact .inl (List.mem_map_of_mem h)

theorem ofCollection_mem {c : CollectionShape} (h : c ∈ CollectionShape.all) :
    ofCollection c ∈ decls := by
  rw [decls, List.mem_append, List.mem_append]
  exact .inl (.inr (List.mem_map_of_mem h))

theorem ofAttribute_mem {name : String} (h : name ∈ AttributeName.all) :
    ofAttribute name ∈ decls := by
  rw [decls, List.mem_append]
  exact .inr (List.mem_map_of_mem h)

end Prelude

/-! ### Arity marks -/

theorem arityMark_mem_metadataName (name : String) {arity : Nat} (h : arity ≠ 0) :
    arityMark ∈ (metadataName name arity).toList := by
  rw [metadataName, if_neg h]
  simp

/-- Whether the byte of an arity mark is among the bytes of a name. -/
def hasMarkByte (name : String) : Bool := name.toByteArray.data.toList.any (· == 0x60)

theorem hasMarkByte_of_mem {name : String} (h : arityMark ∈ name.toList) :
    hasMarkByte name = true := by
  obtain ⟨before, after, hsplit⟩ := List.append_of_mem h
  have hname : name =
      String.ofList before ++ (String.singleton arityMark ++ String.ofList after) := by
    rw [← String.ofList_cons, ← String.ofList_append, ← hsplit, String.ofList_toList]
  have hmark : (String.singleton arityMark).toByteArray.data.toList = [0x60] := rfl
  rw [hname, hasMarkByte, String.toByteArray_append, String.toByteArray_append,
    ByteArray.data_append, ByteArray.data_append, Array.toList_append, Array.toList_append, hmark,
    List.any_append, List.any_append]
  simp

theorem Prelude.arityMark_notMem {decl : TypeDecl} (h : decl ∈ decls) :
    arityMark ∉ decl.name.toList := by
  have hall : ∀ decl ∈ decls, hasMarkByte decl.name = false := by decide +kernel
  intro hmark
  exact absurd (hasMarkByte_of_mem hmark) (by rw [hall decl h]; exact Bool.false_ne_true)

/-- The metadata name of a type with a fixed formatter is not one of a generic declaration. -/
theorem Builtin.arityMark_notMem {b : Builtin} (h : b ∈ Builtin.all) :
    arityMark ∉ b.metadataName.toList :=
  Prelude.arityMark_notMem (Prelude.ofBuiltin_mem h)

/-- The metadata name of a collection has an arity mark exactly when its declaration has
parameters. -/
theorem CollectionShape.metadataName_plain {c : CollectionShape} (h : c ∈ CollectionShape.all) :
    (Assembly.plain (Prelude.ofCollection c)).metadataName = c.metadataName ∧
      ((Assembly.plain (Prelude.ofCollection c)).generics.length = 0 →
        arityMark ∉ c.metadataName.toList) := by
  have hall : ∀ c ∈ CollectionShape.all,
      (Assembly.plain (Prelude.ofCollection c)).metadataName = c.metadataName := by decide +kernel
  refine ⟨hall c h, fun hplain => ?_⟩
  rw [← hall c h, TypeDef.metadataName, hplain, FormatterPlan.metadataName, if_pos rfl]
  exact Prelude.arityMark_notMem (Prelude.ofCollection_mem h)

theorem Prelude.exists_collection {c : CollectionShape} (h : c ∈ CollectionShape.all) :
    ∃ index < Prelude.decls.length, Prelude.decls[index]? = some (Prelude.ofCollection c) := by
  obtain ⟨index, hindex⟩ := List.mem_iff_getElem?.mp (ofCollection_mem h)
  exact ⟨index, (List.getElem?_eq_some_iff.mp hindex).1, hindex⟩

namespace Roles

/-- The roles of the declarations of the prelude. -/
def ofPrelude : Roles where
  object := ⟨90⟩
  key := some ⟨91⟩
  ignoreMember := some ⟨92⟩
  ignoreDataMember := some ⟨93⟩
  union := some ⟨94⟩
  formatter := some ⟨95⟩
  builtins := Builtin.all.zipIdx.map fun (b, index) => (⟨index⟩, b)
  collections := (CollectionShape.all.zipIdx 32).map fun (c, index) => (⟨index⟩, c)
  byte := some ⟨1⟩

/-- Names that are resolved at one position after the other. -/
theorem filterMap_resolve {α : Type} {resolve : String → Option Symbol} {nameOf : α → String}
    {entries : List α} {start : Nat}
    (h : ∀ entry index, (entry, index) ∈ entries.zipIdx start →
      resolve (nameOf entry) = some ⟨index⟩) :
    entries.filterMap (fun entry => (resolve (nameOf entry)).map (·, entry)) =
      (entries.zipIdx start).map fun (entry, index) => (⟨index⟩, entry) := by
  induction entries generalizing start with
  | nil => rfl
  | cons entry rest ih =>
    have hfirst := h entry start (by simp)
    rw [List.filterMap_cons_some (by rw [hfirst]; rfl), List.zipIdx_cons, List.map_cons]
    refine congrArg _ (ih fun other index hother => h other index ?_)
    rw [List.zipIdx_cons]
    exact List.mem_cons_of_mem _ hother

section

variable {defs : List TypeDef}
  (hdistinct : ((Assembly.ofDefs defs).defs.toList.map TypeDef.metadataName).Nodup)

include hdistinct

/-- The declarations of the prelude are found under their metadata names. -/
theorem resolve_prelude {index : Nat} {decl : TypeDecl} (h : Prelude.decls[index]? = some decl) :
    (Assembly.ofDefs defs).byMetadataName? (Assembly.plain decl).metadataName = some ⟨index⟩ := by
  refine Assembly.byMetadataName?_eq_some hdistinct ?_
  have hlt := (List.getElem?_eq_some_iff.mp h).1
  rw [Assembly.def?, Assembly.ofDefs, List.getElem?_toArray,
    List.getElem?_append_left (by rw [List.length_map]; exact hlt), List.getElem?_map, h,
    Option.map_some]

theorem resolve_builtin (b : Builtin) (index : Nat) (h : (b, index) ∈ Builtin.all.zipIdx) :
    (Assembly.ofDefs defs).byMetadataName? b.metadataName = some ⟨index⟩ := by
  rw [List.mk_mem_zipIdx_iff_getElem?] at h
  have hlt := (List.getElem?_eq_some_iff.mp h).1
  have hdecl : Prelude.decls[index]? = some (Prelude.ofBuiltin b) := by
    rw [Prelude.decls, List.append_assoc, List.getElem?_append_left (by simpa using hlt),
      List.getElem?_map, h, Option.map_some]
  exact resolve_prelude hdistinct hdecl

theorem resolve_collection (c : CollectionShape) (index : Nat)
    (h : (c, index) ∈ CollectionShape.all.zipIdx 32) :
    (Assembly.ofDefs defs).byMetadataName? c.metadataName = some ⟨index⟩ := by
  rw [List.mk_mem_zipIdx_iff_le_and_getElem?_sub] at h
  have hlt := (List.getElem?_eq_some_iff.mp h.2).1
  have hbuiltins : (Builtin.all.map Prelude.ofBuiltin).length = 32 := rfl
  have hdecl : Prelude.decls[index]? = some (Prelude.ofCollection c) := by
    rw [Prelude.decls, List.append_assoc,
      List.getElem?_append_right (by rw [hbuiltins]; exact h.1), hbuiltins,
      List.getElem?_append_left (by simpa using hlt), List.getElem?_map, h.2, Option.map_some]
  rw [← (CollectionShape.metadataName_plain (List.mem_of_getElem? h.2)).1]
  exact resolve_prelude hdistinct hdecl

theorem resolve_attribute (name : String) (index : Nat)
    (h : (name, index) ∈ AttributeName.all.zipIdx 90) :
    (Assembly.ofDefs defs).byMetadataName? name = some ⟨index⟩ := by
  rw [List.mk_mem_zipIdx_iff_le_and_getElem?_sub] at h
  have hbefore : (Builtin.all.map Prelude.ofBuiltin ++
      CollectionShape.all.map Prelude.ofCollection).length = 90 := rfl
  have hdecl : Prelude.decls[index]? = some (Prelude.ofAttribute name) := by
    rw [Prelude.decls, List.getElem?_append_right (by rw [hbefore]; exact h.1), hbefore,
      List.getElem?_map, h.2, Option.map_some]
  exact resolve_prelude hdistinct hdecl

/-- The metadata names that have a role belong to the declarations of the prelude. -/
theorem ofAssembly?_ofDefs : ofAssembly? (Assembly.ofDefs defs) [] = some ofPrelude := by
  have hhidden : (fun name => if ([] : List String).contains name then none
      else (Assembly.ofDefs defs).byMetadataName? name) =
        (Assembly.ofDefs defs).byMetadataName? := by
    funext name
    simp
  have hbyte : (Assembly.ofDefs defs).byMetadataName? Builtin.byteName = some ⟨1⟩ :=
    resolve_builtin hdistinct ⟨"System.Byte", "ByteFormatter", true⟩ 1 (by simp [Builtin.all])
  have hattributes := resolve_attribute hdistinct
  simp only [AttributeName.all, List.zipIdx_cons, List.zipIdx_nil, List.mem_cons, Prod.mk.injEq,
    List.not_mem_nil, or_false] at hattributes
  rw [ofAssembly?, hhidden, of?, filterMap_resolve (resolve_builtin hdistinct),
    filterMap_resolve (resolve_collection hdistinct), hbyte,
    hattributes AttributeName.object 90 (by simp), hattributes AttributeName.key 91 (by simp),
    hattributes AttributeName.ignoreMember 92 (by simp),
    hattributes AttributeName.ignoreDataMember 93 (by simp),
    hattributes AttributeName.union 94 (by simp), hattributes AttributeName.formatter 95 (by simp)]
  rfl

end

end Roles

namespace Setting

/-- The setting of resolved declarations that follow those of the prelude. -/
def ofDefs (defs : List TypeDef) (options : Options) : Setting :=
  ⟨.ofDefs defs, .ofPrelude, options⟩

/-- Documents whose declarations and those of the prelude have different metadata names are loaded,
and the roles are those of the prelude. -/
theorem loads_of_nodup {documents : List Document}
    (hdistinct : (Assembly.metadataNames documents).Nodup) {defs : List TypeDef}
    (hdefs : (documents.flatMap (·.types)).mapM
      (NameTable.ofDecls (Prelude.decls ++ documents.flatMap (·.types))).typeDef = .ok defs)
    (options : Options) :
    Assembly.load documents = .ok (ofDefs defs options).assembly ∧
      of? (ofDefs defs options).assembly [] options = some (ofDefs defs options) := by
  refine ⟨Assembly.load_eq_ok hdistinct hdefs, ?_⟩
  have hroles := Roles.ofAssembly?_ofDefs (Assembly.nodup_metadataName hdistinct hdefs)
  rw [of?, ofDefs, hroles]
  rfl

theorem loads_ofDefs {documents : List Document} (hapart : Assembly.Apart documents)
    {defs : List TypeDef}
    (hdefs : (documents.flatMap (·.types)).mapM
      (NameTable.ofDecls (Prelude.decls ++ documents.flatMap (·.types))).typeDef = .ok defs)
    (options : Options) :
    Assembly.load documents = .ok (ofDefs defs options).assembly ∧
      of? (ofDefs defs options).assembly [] options = some (ofDefs defs options) :=
  loads_of_nodup (Assembly.nodup_metadataNames_of_apart hapart) hdefs options

end Setting

/-! ### Fixed formatters -/

/-- Each entry whose name is resolved has a row. -/
theorem Roles.mem_filterMap_resolve {α : Type} (resolve : String → Option Symbol)
    (nameOf : α → String) {entries : List α} {row : Symbol × α} :
    row ∈ entries.filterMap (fun e => (resolve (nameOf e)).map (·, e)) ↔
      row.2 ∈ entries ∧ resolve (nameOf row.2) = some row.1 := by
  rw [List.mem_filterMap]
  constructor
  · rintro ⟨e, he, hrow⟩
    obtain ⟨symbol, hsymbol, rfl⟩ := Option.map_eq_some_iff.mp hrow
    exact ⟨he, hsymbol⟩
  · rintro ⟨he, hsymbol⟩
    exact ⟨row.2, he, by rw [hsymbol, Option.map_some]⟩

/-- The rows of fixed formatters and of collections are under the symbols of their names. -/
theorem Roles.of?_rows {resolve : String → Option Symbol} {roles : Roles}
    (h : of? resolve = some roles) :
    (∀ row ∈ roles.builtins, row.2 ∈ Builtin.all ∧ resolve row.2.metadataName = some row.1) ∧
      ∀ row ∈ roles.collections,
        row.2 ∈ CollectionShape.all ∧ resolve row.2.metadataName = some row.1 := by
  obtain ⟨object, -, hroles⟩ := Option.bind_eq_some_iff.mp h
  obtain rfl := Option.some.inj hroles
  exact ⟨fun row => (mem_filterMap_resolve resolve Builtin.metadataName).mp,
    fun row => (mem_filterMap_resolve resolve CollectionShape.metadataName).mp⟩

/-- A name that is not hidden is looked up. -/
theorem Roles.ofAssembly?_rows {asm : Assembly} {hidden : List String} {roles : Roles}
    (h : ofAssembly? asm hidden = some roles) :
    (∀ row ∈ roles.builtins,
      row.2 ∈ Builtin.all ∧ asm.byMetadataName? row.2.metadataName = some row.1) ∧
      ∀ row ∈ roles.collections,
        row.2 ∈ CollectionShape.all ∧ asm.byMetadataName? row.2.metadataName = some row.1 := by
  obtain ⟨hbuiltins, hcollections⟩ := of?_rows h
  exact ⟨fun row hrow => (hbuiltins row hrow).imp_right fun hfound =>
      (Option.ite_none_left_eq_some.mp hfound).2,
    fun row hrow => (hcollections row hrow).imp_right fun hfound =>
      (Option.ite_none_left_eq_some.mp hfound).2⟩

namespace Setting

variable {s : Setting}

theorem mem_rootCandidates_iff {symbol : Symbol} : symbol ∈ s.rootCandidates ↔
    (s.assembly.preludeSize ≤ symbol.index ∧ symbol.index < s.assembly.defs.size) ∧
      s.isRootCandidate symbol = true := by
  rw [rootCandidates, List.mem_filter, Assembly.mem_userSymbols_iff]

/-- A symbol with a fixed formatter is found under the metadata name of the formatter's type. -/
theorem of?_builtin {hidden : List String} {options : Options}
    (hsetting : of? s.assembly hidden options = some s) {symbol : Symbol} {b : Builtin}
    (hbuiltin : s.roles.builtin? symbol = some b) :
    b ∈ Builtin.all ∧ s.assembly.byMetadataName? b.metadataName = some symbol := by
  obtain ⟨roles, hroles, hs⟩ := Option.map_eq_some_iff.mp hsetting
  obtain rfl : roles = s.roles := congrArg Setting.roles hs
  exact (Roles.ofAssembly?_rows hroles).1 _ (mem_of_lookup_eq_some hbuiltin)

/-- A symbol that is a collection is found under the metadata name of the collection. -/
theorem of?_collection {hidden : List String} {options : Options}
    (hsetting : of? s.assembly hidden options = some s) {symbol : Symbol} {c : CollectionShape}
    (hcollection : s.roles.collection? symbol = some c) :
    c ∈ CollectionShape.all ∧ s.assembly.byMetadataName? c.metadataName = some symbol := by
  obtain ⟨roles, hroles, hs⟩ := Option.map_eq_some_iff.mp hsetting
  obtain rfl : roles = s.roles := congrArg Setting.roles hs
  exact (Roles.ofAssembly?_rows hroles).2 _ (mem_of_lookup_eq_some hcollection)

/-- What has a fixed formatter is a declaration of the prelude, which carries no attributes. -/
theorem attributesOf_builtin {documents : List Document} {hidden : List String} {options : Options}
    (hload : Assembly.load documents = .ok s.assembly)
    (hsetting : of? s.assembly hidden options = some s) {symbol : Symbol} {b : Builtin}
    (hbuiltin : s.roles.builtin? symbol = some b) {d : TypeDef}
    (hd : s.assembly.def? symbol = some d) : d.attributes = [] := by
  obtain ⟨hb, hfound⟩ := of?_builtin hsetting hbuiltin
  obtain ⟨d', hd', hname⟩ := Assembly.exists_of_byMetadataName? hfound
  obtain rfl : d = d' := by rw [hd] at hd'; exact Option.some.inj hd'
  have harity : d.generics.length = 0 := by
    by_contra hne
    have hmark := arityMark_mem_metadataName d.name hne
    rw [← TypeDef.metadataName, hname] at hmark
    exact Builtin.arityMark_notMem hb hmark
  rw [TypeDef.metadataName, metadataName, if_pos harity] at hname
  obtain ⟨index, hindex⟩ := List.mem_iff_getElem?.mp (Prelude.ofBuiltin_mem hb)
  have hprelude := Assembly.def?_prelude hload hindex
  have hdistinct := (Assembly.wellFormed_of_load hload).distinct
  obtain rfl : symbol = ⟨index⟩ := hdistinct _ _ _ _ hd hprelude hname harity
  rw [hd, Option.some.injEq] at hprelude
  rw [hprelude]
  rfl

end Setting

end FormatterPlan
