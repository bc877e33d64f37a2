import FormatterPlan.Assembly.Load
import FormatterPlan.Proofs.Results
import FormatterPlan.Proofs.Types
import Mathlib.Data.List.Nodup

/-! What loading guarantees.  In a loaded assembly no two declarations have the same name and arity;
every type fits over the parameters of the declaration it stands in; fields and properties have a
type; and an enumeration says what its values are.  The resolution of names gives out symbols of the
declarations alone, each with the number of arguments that was asked for, and everything else is
carried over from there. -/

namespace FormatterPlan

/-! ### Well-formed assemblies -/

/-- An attribute whose class is declared without parameters and whose types fit. -/
structure Attribute.WellFormed (asm : Assembly) (generics : List String) (a : Attribute) :
    Prop where
  declared : ∃ d, asm.def? a.symbol = some d ∧ d.generics = []
  types : ∀ t, .type t ∈ a.args → t.Fits asm (Ty.InScope generics)

/-- A member whose types fit over the parameters of its declaration. -/
structure Member.WellFormed (asm : Assembly) (generics : List String) (m : Member) : Prop where
  type : ∀ t ∈ m.type, t.Fits asm (Ty.InScope generics)
  params : ∀ t ∈ m.params, t.Fits asm (Ty.InScope generics)
  attributes : ∀ a ∈ m.attributes, a.WellFormed asm generics
  /-- Only methods may have no type. -/
  typed : m.kind ≠ .method → m.type.isSome = true

/-- A declaration whose types fit over its own parameters. -/
structure TypeDef.WellFormed (asm : Assembly) (d : TypeDef) : Prop where
  base : ∀ t ∈ d.base, t.Fits asm (Ty.InScope d.generics)
  underlying : ∀ t ∈ d.underlying, t.Fits asm (Ty.InScope d.generics)
  enumerated : d.kind = .enumeration → d.underlying.isSome = true
  attributes : ∀ a ∈ d.attributes, a.WellFormed asm d.generics
  members : ∀ m ∈ d.members, m.WellFormed asm d.generics

/-- An assembly of well-formed declarations that differ in name or arity. -/
structure Assembly.WellFormed (asm : Assembly) : Prop where
  distinct : asm.Distinct
  defs : ∀ symbol d, asm.def? symbol = some d → d.WellFormed asm

theorem Member.WellFormed.isSome_type {asm : Assembly} {generics : List String} {m : Member}
    (h : m.WellFormed asm generics) (hdata : m.isData = true) : m.type.isSome = true := by
  simp only [Member.isData, Bool.and_eq_true, bne_iff_ne] at hdata
  exact h.typed hdata.2

/-! ### Resolution of names -/

namespace NameTable

/-- Every entry of a table is about a declaration of the assembly, and has its arity. -/
def Describes (table : NameTable) (asm : Assembly) : Prop :=
  ∀ e ∈ table, ∃ d, asm.def? e.symbol = some d ∧ d.generics.length = e.arity

variable {table : NameTable} {asm : Assembly}

theorem resolveCandidate_ok {candidate : String} {arity : Nat} {symbol : Symbol}
    (h : table.resolveCandidate candidate arity = some (.ok symbol)) :
    ∃ e ∈ table, e.symbol = symbol ∧ e.arity = arity := by
  unfold resolveCandidate at h
  split at h
  · rename_i e he
    obtain rfl : e.symbol = symbol := by simpa using h
    have harity := List.find?_some he
    rw [Bool.and_eq_true, beq_iff_eq] at harity
    exact ⟨e, List.mem_of_find?_eq_some he, rfl, harity.1⟩
  · split at h
    · simp at h
    · rename_i only honly
      obtain rfl : only.symbol = symbol := by simpa using h
      have hmem : only ∈ table.bySimpleName candidate arity := by simp [honly]
      rw [bySimpleName, List.mem_filter, Bool.and_eq_true, beq_iff_eq] at hmem
      exact ⟨only, hmem.1, rfl, hmem.2.1⟩
    · simp at h

/-- A name that is resolved stands for a declaration with as many parameters as were asked for. -/
theorem resolve_ok (htable : table.Describes asm) {context name : String} {arity : Nat}
    {isAttribute : Bool} {symbol : Symbol}
    (h : table.resolve context name arity isAttribute = .ok symbol) :
    ∃ d, asm.def? symbol = some d ∧ d.generics.length = arity := by
  unfold resolve at h
  split at h
  · rename_i found hfound
    obtain rfl : found = symbol := by simpa using h
    obtain ⟨candidate, -, hcandidate⟩ := List.exists_of_findSome?_eq_some hfound
    obtain ⟨e, he, rfl, rfl⟩ := resolveCandidate_ok hcandidate
    exact htable e he
  · simp at h
  · simp at h

end NameTable

/-! ### Types, attributes and members in a scope -/

namespace Scope

variable {scope : Scope} {asm : Assembly} {context : String}

theorem resolveAll_ok_length : ∀ {exprs : List TypeExpr} {ts : List Ty},
    scope.resolveAll context exprs = .ok ts → ts.length = exprs.length
  | [], ts, h => by
    rw [resolveAll] at h
    obtain rfl : [] = ts := by simpa using h
    rfl
  | expr :: rest, ts, h => by
    rw [resolveAll] at h
    obtain ⟨first, -, h⟩ := bind_eq_ok_iff.mp h
    obtain ⟨others, hothers, h⟩ := bind_eq_ok_iff.mp h
    obtain rfl : first :: others = ts := by simpa using h
    rw [List.length_cons, List.length_cons, resolveAll_ok_length hothers]

theorem nullable_fits (htable : scope.table.Describes asm) {inner t : Ty}
    (hinner : inner.Fits asm (Ty.InScope scope.generics))
    (h : scope.nullable context inner = .ok t) : t.Fits asm (Ty.InScope scope.generics) := by
  unfold nullable at h
  split at h
  · split at h
    · obtain ⟨symbol, hsymbol, h⟩ := bind_eq_ok_iff.mp h
      obtain rfl : Ty.named symbol [_] = t := by simpa using h
      obtain ⟨d, hd, harity⟩ := NameTable.resolve_ok htable hsymbol
      simpa [hd, harity] using hinner
    · obtain rfl : _ = t := by simpa using h
      exact hinner
  · obtain rfl : inner = t := by simpa using h
    exact hinner

mutual

/-- A type that is resolved fits over the parameters in scope. -/
theorem resolve_fits (htable : scope.table.Describes asm) :
    ∀ {expr : TypeExpr} {t : Ty}, scope.resolve context expr = .ok t →
      t.Fits asm (Ty.InScope scope.generics)
  | .named name [], t, h => by
    rw [resolve] at h
    split at h
    · rename_i index hindex
      obtain rfl : Ty.param index name = t := by simpa using h
      rw [Ty.fits_param, Ty.InScope]
      obtain ⟨hlt, heq⟩ := List.findIdx?_eq_some_iff_getElem.mp hindex |>.imp fun _ h => h.1
      rw [List.getElem?_eq_getElem hlt]
      simpa using heq
    · obtain ⟨symbol, hsymbol, h⟩ := bind_eq_ok_iff.mp h
      obtain rfl : Ty.named symbol [] = t := by simpa using h
      obtain ⟨d, hd, harity⟩ := NameTable.resolve_ok htable hsymbol
      simp [hd, harity]
  | .named name (arg :: args), t, h => by
    rw [resolve] at h
    obtain ⟨symbol, hsymbol, h⟩ := bind_eq_ok_iff.mp h
    obtain ⟨first, hfirst, h⟩ := bind_eq_ok_iff.mp h
    obtain ⟨others, hothers, h⟩ := bind_eq_ok_iff.mp h
    obtain rfl : Ty.named symbol (first :: others) = t := by simpa using h
    obtain ⟨d, hd, harity⟩ := NameTable.resolve_ok htable hsymbol
    rw [Ty.fits_named]
    refine ⟨⟨d, hd, ?_⟩, ?_⟩
    · rw [harity, List.length_cons, resolveAll_ok_length hothers]
    · intro u hu
      rcases List.mem_cons.mp hu with rfl | hu
      · exact resolve_fits htable hfirst
      · exact resolveAll_fits htable hothers u hu
  | .array element rank, t, h => by
    rw [resolve] at h
    obtain ⟨inner, hinner, h⟩ := bind_eq_ok_iff.mp h
    obtain rfl : Ty.array inner rank = t := by simpa using h
    rw [Ty.fits_array]
    exact resolve_fits htable hinner
  | .tuple elements, t, h => by
    rw [resolve] at h
    obtain ⟨symbol, hsymbol, h⟩ := bind_eq_ok_iff.mp h
    obtain ⟨parts, hparts, h⟩ := bind_eq_ok_iff.mp h
    obtain rfl : Ty.named symbol parts = t := by simpa using h
    obtain ⟨d, hd, harity⟩ := NameTable.resolve_ok htable hsymbol
    rw [Ty.fits_named]
    exact ⟨⟨d, hd, by rw [harity, resolveAll_ok_length hparts]⟩, resolveAll_fits htable hparts⟩
  | .nullable inner, t, h => by
    rw [resolve] at h
    obtain ⟨u, hu, h⟩ := bind_eq_ok_iff.mp h
    exact nullable_fits htable (resolve_fits htable hu) h

/-- Types that are resolved together fit. -/
theorem resolveAll_fits (htable : scope.table.Describes asm) :
    ∀ {exprs : List TypeExpr} {ts : List Ty}, scope.resolveAll context exprs = .ok ts →
      ∀ t ∈ ts, t.Fits asm (Ty.InScope scope.generics)
  | [], ts, h => by
    rw [resolveAll] at h
    obtain rfl : [] = ts := by simpa using h
    simp
  | expr :: rest, ts, h => by
    rw [resolveAll] at h
    obtain ⟨first, hfirst, h⟩ := bind_eq_ok_iff.mp h
    obtain ⟨others, hothers, h⟩ := bind_eq_ok_iff.mp h
    obtain rfl : first :: others = ts := by simpa using h
    intro u hu
    rcases List.mem_cons.mp hu with rfl | hu
    · exact resolve_fits htable hfirst
    · exact resolveAll_fits htable hothers u hu

end

theorem typeOf_fits (htable : scope.table.Describes asm) {text : String} {t : Ty}
    (h : scope.typeOf context text = .ok t) : t.Fits asm (Ty.InScope scope.generics) := by
  unfold typeOf at h
  split at h
  · exact resolve_fits htable h
  · simp at h

theorem argumentOf_fits (htable : scope.table.Describes asm) {decl : ArgumentDecl}
    {argument : Argument} (h : scope.argumentOf context decl = .ok argument) :
    ∀ t, argument = .type t → t.Fits asm (Ty.InScope scope.generics) := by
  rintro t rfl
  unfold argumentOf at h
  split at h
  · obtain ⟨u, hu, h⟩ := bind_eq_ok_iff.mp h
    obtain rfl : u = t := by simpa using h
    exact typeOf_fits htable hu
  · simp at h
  · simp at h
  · simp at h
  · split at h <;> simp at h
  · simp at h

theorem attributeOf_wellFormed (htable : scope.table.Describes asm) {decl : AttributeDecl}
    {a : Attribute} (h : scope.attributeOf context decl = .ok a) :
    a.WellFormed asm scope.generics := by
  unfold attributeOf at h
  obtain ⟨symbol, hsymbol, h⟩ := bind_eq_ok_iff.mp h
  obtain ⟨args, hargs, h⟩ := bind_eq_ok_iff.mp h
  obtain rfl : Attribute.mk symbol args = a := by simpa using h
  obtain ⟨d, hd, harity⟩ := NameTable.resolve_ok htable hsymbol
  refine ⟨⟨d, hd, List.eq_nil_of_length_eq_zero harity⟩, fun t ht => ?_⟩
  exact forall_of_mapM (P := fun argument => ∀ t, argument = .type t →
    t.Fits asm (Ty.InScope scope.generics)) hargs
    (fun _ _ _ hargument => argumentOf_fits htable hargument) _ ht t rfl

theorem memberType_ok (htable : scope.table.Describes asm) {decl : MemberDecl} {type : Option Ty}
    (h : scope.memberType context decl = .ok type) :
    (∀ t ∈ type, t.Fits asm (Ty.InScope scope.generics)) ∧
      (decl.kind ≠ .method → type.isSome = true) := by
  unfold memberType at h
  split at h
  · obtain ⟨t, ht, rfl⟩ := map_eq_ok_iff.mp h
    simpa using typeOf_fits htable ht
  · rename_i hkind
    obtain rfl : none = type := by simpa using h
    simp [hkind]
  · simp at h

theorem memberOf_wellFormed (htable : scope.table.Describes asm) {owner : String}
    {decl : MemberDecl} {m : Member} (h : scope.memberOf owner decl = .ok m) :
    m.WellFormed asm scope.generics := by
  unfold memberOf at h
  obtain ⟨type, htype, h⟩ := bind_eq_ok_iff.mp h
  obtain ⟨params, hparams, h⟩ := bind_eq_ok_iff.mp h
  obtain ⟨attributes, hattributes, h⟩ := bind_eq_ok_iff.mp h
  simp only [Except.ok.injEq] at h
  subst h
  exact {
    type := (memberType_ok htable htype).1
    params := forall_of_mapM hparams fun _ _ _ ht => typeOf_fits htable ht
    attributes := forall_of_mapM hattributes fun _ _ _ ha => attributeOf_wellFormed htable ha
    typed := (memberType_ok htable htype).2 }

end Scope

/-! ### Declarations -/

namespace NameTable

variable {table : NameTable} {asm : Assembly}

/-- A declaration is resolved part by part.  Of its values only an enumeration has a type. -/
theorem typeDef_ok {decl : TypeDecl} {d : TypeDef} (h : table.typeDef decl = .ok d) :
    d.name = decl.name ∧ d.generics = decl.generics ∧
      decl.attributes.mapM ((⟨table, decl.generics⟩ : Scope).attributeOf decl.name) =
        .ok d.attributes ∧
      decl.base.mapM ((⟨table, decl.generics⟩ : Scope).typeOf decl.name) = .ok d.base ∧
      decl.members.mapM ((⟨table, decl.generics⟩ : Scope).memberOf decl.name) = .ok d.members ∧
      ((∃ text t, (⟨table, decl.generics⟩ : Scope).typeOf decl.name text = .ok t ∧
        d.underlying = some t) ∨ (d.kind ≠ .enumeration ∧ d.underlying = none)) := by
  unfold typeDef at h
  obtain ⟨attributes, hattributes, h⟩ := bind_eq_ok_iff.mp h
  obtain ⟨base, hbase, h⟩ := bind_eq_ok_iff.mp h
  obtain ⟨members, hmembers, h⟩ := bind_eq_ok_iff.mp h
  dsimp only at h
  split at h
  · obtain ⟨underlying, hunderlying, h⟩ := bind_eq_ok_iff.mp h
    obtain ⟨t, ht, rfl⟩ := map_eq_ok_iff.mp hunderlying
    rw [Except.ok.injEq] at h
    subst h
    exact ⟨rfl, rfl, hattributes, hbase, hmembers, .inl ⟨_, t, ht, rfl⟩⟩
  · rename_i hkind
    obtain ⟨underlying, hnone, h⟩ := bind_eq_ok_iff.mp h
    rw [Except.ok.injEq] at h hnone
    subst h hnone
    exact ⟨rfl, rfl, hattributes, hbase, hmembers, .inr ⟨hkind, rfl⟩⟩

theorem typeDef_wellFormed (htable : table.Describes asm) {decl : TypeDecl} {d : TypeDef}
    (h : table.typeDef decl = .ok d) : d.WellFormed asm := by
  obtain ⟨-, hgenerics, hattributes, hbase, hmembers, hunderlying⟩ := typeDef_ok h
  constructor
  case base =>
    intro t ht
    obtain ⟨_, -, htext⟩ := option_mapM_ok hbase t ht
    exact hgenerics ▸ Scope.typeOf_fits htable htext
  case underlying =>
    intro t ht
    rcases hunderlying with ⟨text, u, hu, hsome⟩ | ⟨-, hnone⟩
    · obtain rfl : u = t := by simpa [hsome] using ht
      exact hgenerics ▸ Scope.typeOf_fits htable hu
    · simp [hnone] at ht
  case enumerated =>
    intro hkind
    rcases hunderlying with ⟨text, u, -, hsome⟩ | ⟨hother, -⟩
    · simp [hsome]
    · exact absurd hkind hother
  case attributes =>
    rw [hgenerics]
    exact forall_of_mapM hattributes fun _ _ _ ha => Scope.attributeOf_wellFormed htable ha
  case members =>
    rw [hgenerics]
    exact forall_of_mapM hmembers fun _ _ _ hm => Scope.memberOf_wellFormed htable hm

end NameTable

namespace NameTable

/-- Without a repetition, two declarations with the same name and arity are at one position, and
none has a name and arity that were seen before. -/
theorem firstRepeated?_eq_none {seen : List (String × Nat)} {decls : List TypeDecl}
    (h : firstRepeated? seen decls = none) :
    (decls.map fun decl => (decl.name, decl.generics.length)).Nodup ∧
      ∀ decl ∈ decls, (decl.name, decl.generics.length) ∉ seen := by
  induction decls generalizing seen with
  | nil => simp
  | cons decl rest ih =>
    rw [firstRepeated?] at h
    split at h
    · simp at h
    rename_i hnew
    obtain ⟨hnodup, hunseen⟩ := ih h
    simp only [List.mem_cons, not_or] at hunseen
    rw [List.map_cons, List.nodup_cons]
    refine ⟨⟨fun hmem => ?_, hnodup⟩, fun decl' hdecl' => ?_⟩
    · obtain ⟨decl', hdecl', heq⟩ := List.mem_map.mp hmem
      exact (hunseen decl' hdecl').1 heq
    · rcases List.mem_cons.mp hdecl' with rfl | hdecl'
      · simpa using hnew
      · exact (hunseen decl' hdecl').2

end NameTable

namespace Assembly

variable {asm : Assembly}

/-- A built assembly holds the resolved declarations at the positions at which they are declared. -/
theorem build_ok {preludeSize : Nat} {decls : List TypeDecl}
    (h : build preludeSize decls = .ok asm) :
    NameTable.firstRepeated? [] decls = none ∧
      ∃ defs, decls.mapM (NameTable.ofDecls decls).typeDef = .ok defs ∧
        asm = ⟨defs.toArray, preludeSize⟩ := by
  unfold build at h
  simp only at h
  split at h
  · obtain ⟨_, himpossible, -⟩ := bind_eq_ok_iff.mp h
    simp at himpossible
  · rename_i hnone
    obtain ⟨defs, hdefs, h⟩ := bind_eq_ok_iff.mp h
    obtain rfl : Assembly.mk defs.toArray _ = asm := by simpa using h
    exact ⟨Option.eq_none_iff_forall_ne_some.mpr hnone, defs, hdefs, rfl⟩

/-- The declaration at a position of a built assembly is the one written there, resolved. -/
theorem build_def? {decls : List TypeDecl} {table : NameTable} {defs : List TypeDef}
    {preludeSize : Nat} (h : decls.mapM table.typeDef = .ok defs) {symbol : Symbol} {d : TypeDef}
    (hd : (⟨defs.toArray, preludeSize⟩ : Assembly).def? symbol = some d) :
    ∃ decl, decls[symbol.index]? = some decl ∧ table.typeDef decl = .ok d := by
  have hall := mapM_eq_ok_iff.mp h
  rw [def?, List.getElem?_toArray] at hd
  obtain ⟨hlt, rfl⟩ := List.getElem?_eq_some_iff.mp hd
  have hlt' : symbol.index < decls.length := by rw [hall.length_eq]; exact hlt
  exact ⟨decls[symbol.index], List.getElem?_eq_getElem hlt', hall.get hlt' hlt⟩

/-- The table of names that declarations are resolved against describes what they resolve to. -/
theorem describes_ofDecls {decls : List TypeDecl} {table : NameTable} {defs : List TypeDef}
    {preludeSize : Nat} (h : decls.mapM table.typeDef = .ok defs) :
    (NameTable.ofDecls decls).Describes ⟨defs.toArray, preludeSize⟩ := by
  intro e he
  obtain ⟨⟨decl, index⟩, hmem, rfl⟩ := List.mem_map.mp he
  have hall := mapM_eq_ok_iff.mp h
  rw [List.mk_mem_zipIdx_iff_getElem?] at hmem
  obtain ⟨hlt, rfl⟩ := List.getElem?_eq_some_iff.mp hmem
  have hlt' : index < defs.length := by rw [← hall.length_eq]; exact hlt
  refine ⟨defs[index], ?_, ?_⟩
  · rw [def?, List.getElem?_toArray]
    exact List.getElem?_eq_getElem hlt'
  · have hok := NameTable.typeDef_ok (hall.get hlt hlt')
    exact congrArg List.length hok.2.1

/-- Loaded assemblies are well formed. -/
theorem wellFormed_of_load {documents : List Document} (h : load documents = .ok asm) :
    asm.WellFormed := by
  rw [load, ofDecls] at h
  obtain ⟨hnone, defs, hdefs, rfl⟩ := build_ok h
  constructor
  case distinct =>
    intro a b d e hd he hname harity
    obtain ⟨declA, hA, hdeclA⟩ := build_def? hdefs hd
    obtain ⟨declB, hB, hdeclB⟩ := build_def? hdefs he
    obtain ⟨hnameA, hgenericsA, -⟩ := NameTable.typeDef_ok hdeclA
    obtain ⟨hnameB, hgenericsB, -⟩ := NameTable.typeDef_ok hdeclB
    obtain ⟨hltA, -⟩ := List.getElem?_eq_some_iff.mp hA
    have hindex : a.index = b.index := by
      have hget : (declA.name, declA.generics.length) = (declB.name, declB.generics.length) := by
        rw [← hnameA, ← hnameB, ← hgenericsA, ← hgenericsB, hname, harity]
      have hnodup := (NameTable.firstRepeated?_eq_none hnone).1
      refine (List.getElem?_inj (by simpa using hltA) hnodup).mp ?_
      rw [List.getElem?_map, List.getElem?_map, hA, hB, Option.map_some, Option.map_some, hget]
    cases a
    cases b
    simpa using hindex
  case defs =>
    intro symbol d hd
    obtain ⟨decl, -, hdecl⟩ := build_def? hdefs hd
    exact NameTable.typeDef_wellFormed (describes_ofDecls hdefs) hdecl

end Assembly

end FormatterPlan
