import FormatterPlan.Proofs.CompleteGraph
import FormatterPlan.Proofs.WrittenTypes

/-! The types of a loaded assembly.  Every type that a declaration stores is what some text reads in
the scope of that declaration, so it fits over the parameters of the declaration, and its arrays
have from one to the most dimensions.  The types of a graph are made from stored types, from their
arguments and from their elements, so all of this carries over to them: nothing that is looked up
later is missing. -/

namespace FormatterPlan

/-! ### Dimensions -/

namespace Ty

mutual

/-- Whether arrays have at least one dimension and no more than are kept. -/
def Ranked : Ty → Prop
  | .named _ args => AllRanked args
  | .array element rank => Ranked element ∧ 1 ≤ rank ∧ rank ≤ TypeExpr.maxRank
  | .param .. => True

def AllRanked : List Ty → Prop
  | [] => True
  | t :: ts => Ranked t ∧ AllRanked ts

end

theorem allRanked_iff {ts : List Ty} : AllRanked ts ↔ ∀ t ∈ ts, t.Ranked := by
  induction ts with
  | nil => simp [AllRanked]
  | cons t ts ih => simp [AllRanked, ih]

@[simp] theorem ranked_named {symbol : Symbol} {args : List Ty} :
    (named symbol args).Ranked ↔ ∀ t ∈ args, t.Ranked := by rw [Ranked, allRanked_iff]

@[simp] theorem ranked_array {element : Ty} {rank : Nat} :
    (array element rank).Ranked ↔ element.Ranked ∧ 1 ≤ rank ∧ rank ≤ TypeExpr.maxRank := by
  rw [Ranked]

@[simp] theorem ranked_param {index : Nat} {name : String} : (param index name).Ranked := by
  rw [Ranked]; trivial

theorem Ranked.args {t : Ty} (h : t.Ranked) : ∀ u ∈ t.args, u.Ranked := by
  cases t with
  | named symbol args => exact ranked_named.mp h
  | array element rank => exact List.forall_mem_nil _
  | param index name => exact List.forall_mem_nil _

theorem Ranked.subst {t : Ty} {context : List Ty} (h : t.Ranked)
    (hcontext : ∀ u ∈ context, u.Ranked) : (t.subst context).Ranked := by
  induction t using Ty.induction with
  | named symbol args ih =>
    rw [ranked_named] at h
    rw [subst_named, ranked_named]
    intro u hu
    obtain ⟨t, ht, rfl⟩ := List.mem_map.mp hu
    exact ih t ht (h t ht)
  | array element rank ih =>
    rw [ranked_array] at h
    rw [subst_array, ranked_array]
    exact ⟨ih h.1, h.2⟩
  | param index name =>
    rw [subst_param]
    cases hget : context[index]? with
    | none => exact ranked_param
    | some u => exact hcontext u (List.mem_of_getElem? hget)

end Ty

namespace Scope

variable {scope : Scope} {context : String}

theorem nullable_ranked {inner t : Ty} (hinner : inner.Ranked)
    (h : scope.nullable context inner = .ok t) : t.Ranked := by
  unfold nullable at h
  split at h
  · split at h
    · obtain ⟨symbol, -, h⟩ := bind_eq_ok_iff.mp h
      obtain rfl : Ty.named symbol [_] = t := by simpa using h
      exact Ty.ranked_named.mpr (List.forall_mem_singleton.mpr hinner)
    · obtain rfl : _ = t := by simpa using h
      exact hinner
  · obtain rfl : inner = t := by simpa using h
    exact hinner

mutual

/-- Resolution keeps the dimensions of arrays. -/
theorem resolve_ranked : ∀ {expr : TypeExpr} {t : Ty}, expr.Writable →
    scope.resolve context expr = .ok t → t.Ranked
  | .named name [], t, _, h => by
    rw [resolve] at h
    split at h
    · rename_i index _
      obtain rfl : Ty.param index name = t := by simpa using h
      exact Ty.ranked_param
    · obtain ⟨symbol, -, h⟩ := bind_eq_ok_iff.mp h
      obtain rfl : Ty.named symbol [] = t := by simpa using h
      exact Ty.ranked_named.mpr (List.forall_mem_nil _)
  | .named name (arg :: args), t, hwritable, h => by
    rw [TypeExpr.writable_named, List.forall_mem_cons] at hwritable
    rw [resolve] at h
    obtain ⟨symbol, -, h⟩ := bind_eq_ok_iff.mp h
    obtain ⟨first, hfirst, h⟩ := bind_eq_ok_iff.mp h
    obtain ⟨others, hothers, h⟩ := bind_eq_ok_iff.mp h
    obtain rfl : Ty.named symbol (first :: others) = t := by simpa using h
    exact Ty.ranked_named.mpr (List.forall_mem_cons.mpr
      ⟨resolve_ranked hwritable.2.1 hfirst, resolveAll_ranked hwritable.2.2 hothers⟩)
  | .array element rank, t, hwritable, h => by
    obtain ⟨helement, hrank⟩ := TypeExpr.writable_array.mp hwritable
    rw [resolve] at h
    obtain ⟨inner, hinner, h⟩ := bind_eq_ok_iff.mp h
    obtain rfl : Ty.array inner rank = t := by simpa using h
    exact Ty.ranked_array.mpr ⟨resolve_ranked helement hinner, hrank⟩
  | .tuple elements, t, hwritable, h => by
    rw [resolve] at h
    obtain ⟨symbol, -, h⟩ := bind_eq_ok_iff.mp h
    obtain ⟨parts, hparts, h⟩ := bind_eq_ok_iff.mp h
    obtain rfl : Ty.named symbol parts = t := by simpa using h
    exact Ty.ranked_named.mpr
      (resolveAll_ranked (TypeExpr.writable_tuple.mp hwritable).2 hparts)
  | .nullable inner, t, hwritable, h => by
    rw [resolve] at h
    obtain ⟨u, hu, h⟩ := bind_eq_ok_iff.mp h
    exact nullable_ranked (resolve_ranked (TypeExpr.writable_nullable.mp hwritable) hu) h

theorem resolveAll_ranked : ∀ {exprs : List TypeExpr} {ts : List Ty},
    (∀ e ∈ exprs, e.Writable) → scope.resolveAll context exprs = .ok ts → ∀ t ∈ ts, t.Ranked
  | [], ts, _, h => by
    rw [resolveAll] at h
    obtain rfl : [] = ts := by simpa using h
    exact List.forall_mem_nil _
  | expr :: rest, ts, hwritable, h => by
    rw [List.forall_mem_cons] at hwritable
    rw [resolveAll] at h
    obtain ⟨first, hfirst, h⟩ := bind_eq_ok_iff.mp h
    obtain ⟨others, hothers, h⟩ := bind_eq_ok_iff.mp h
    obtain rfl : first :: others = ts := by simpa using h
    exact List.forall_mem_cons.mpr
      ⟨resolve_ranked hwritable.1 hfirst, resolveAll_ranked hwritable.2 hothers⟩

end

theorem typeOf_ranked {text : String} {t : Ty} (h : scope.typeOf context text = .ok t) :
    t.Ranked := by
  unfold typeOf at h
  split at h
  · rename_i expr hparse
    exact resolve_ranked (TypeExpr.writable_of_parse hparse) h
  · simp at h

end Scope

/-! ### What a declaration stores -/

/-- The types among the arguments of an attribute. -/
def Attribute.types (a : Attribute) : List Ty :=
  a.args.filterMap fun
    | .type t => some t
    | _ => none

/-- The type of a member, those of its parameters and those of its attributes. -/
def Member.types (m : Member) : List Ty :=
  m.type.toList ++ m.params ++ m.attributes.flatMap Attribute.types

/-- All types that a declaration stores, its members included. -/
def TypeDef.types (d : TypeDef) : List Ty :=
  d.base.toList ++ d.underlying.toList ++ d.attributes.flatMap Attribute.types ++
    d.members.flatMap Member.types

/-- The attributes of a declaration and of its members. -/
def TypeDef.allAttributes (d : TypeDef) : List Attribute :=
  d.attributes ++ d.members.flatMap (·.attributes)

theorem Attribute.mem_types {a : Attribute} {t : Ty} : t ∈ a.types ↔ .type t ∈ a.args := by
  rw [types, List.mem_filterMap]
  constructor
  · rintro ⟨argument, hmem, heq⟩
    cases argument with
    | type u => exact Option.some.inj heq ▸ hmem
    | _ => simp at heq
  · intro h
    exact ⟨.type t, h, rfl⟩

theorem Member.mem_types {m : Member} {t : Ty} :
    t ∈ m.types ↔ m.type = some t ∨ t ∈ m.params ∨ ∃ a ∈ m.attributes, t ∈ a.types := by
  simp [types]

theorem TypeDef.mem_types {d : TypeDef} {t : Ty} :
    t ∈ d.types ↔ d.base = some t ∨ d.underlying = some t ∨ (∃ a ∈ d.attributes, t ∈ a.types) ∨
      ∃ m ∈ d.members, t ∈ m.types := by
  simp [types]

namespace Scope

/-- A type that some text stands for. -/
def Reads (scope : Scope) (t : Ty) : Prop := ∃ context text, scope.typeOf context text = .ok t

variable {scope : Scope} {context : String}

theorem argumentOf_reads {decl : ArgumentDecl} {t : Ty}
    (h : scope.argumentOf context decl = .ok (.type t)) : scope.Reads t := by
  unfold argumentOf at h
  split at h
  · rename_i text
    obtain ⟨u, hu, h⟩ := bind_eq_ok_iff.mp h
    obtain rfl : u = t := by simpa using h
    exact ⟨context, text, hu⟩
  · simp at h
  · simp at h
  · simp at h
  · split at h <;> simp at h
  · simp at h

theorem attributeOf_reads {decl : AttributeDecl} {a : Attribute}
    (h : scope.attributeOf context decl = .ok a) : ∀ t ∈ a.types, scope.Reads t := by
  unfold attributeOf at h
  obtain ⟨symbol, -, h⟩ := bind_eq_ok_iff.mp h
  obtain ⟨args, hargs, h⟩ := bind_eq_ok_iff.mp h
  obtain rfl : Attribute.mk symbol args = a := by simpa using h
  intro t ht
  apply forall_of_mapM (P := fun argument => ∀ u, argument = .type u → scope.Reads u) hargs _ _
    (Attribute.mem_types.mp ht) t rfl
  rintro _ _ _ hargument u rfl
  exact argumentOf_reads hargument

theorem attributes_read {decls : List AttributeDecl} {attributes : List Attribute}
    (h : decls.mapM (scope.attributeOf context) = .ok attributes) :
    ∀ a ∈ attributes, ∀ t ∈ a.types, scope.Reads t :=
  forall_of_mapM h fun _ _ _ hread => attributeOf_reads hread

theorem memberOf_reads {owner : String} {decl : MemberDecl} {m : Member}
    (h : scope.memberOf owner decl = .ok m) : ∀ t ∈ m.types, scope.Reads t := by
  unfold memberOf at h
  obtain ⟨type, htype, h⟩ := bind_eq_ok_iff.mp h
  obtain ⟨params, hparams, h⟩ := bind_eq_ok_iff.mp h
  obtain ⟨attributes, hattributes, h⟩ := bind_eq_ok_iff.mp h
  simp only [Except.ok.injEq] at h
  subst h
  intro t ht
  obtain ht | ht | ⟨a, ha, ht⟩ := Member.mem_types.mp ht
  · unfold memberType at htype
    split at htype
    · obtain ⟨u, hu, rfl⟩ := map_eq_ok_iff.mp htype
      obtain rfl : u = t := by simpa using ht
      exact ⟨_, _, hu⟩
    · obtain rfl : none = type := by simpa using htype
      simp at ht
    · simp at htype
  · exact forall_of_mapM hparams (fun text _ _ hread => ⟨_, text, hread⟩) t ht
  · exact attributes_read hattributes a ha t ht

end Scope

/-- Every type that a declaration stores is read in the scope of its parameters. -/
theorem NameTable.typeDef_reads {table : NameTable} {decl : TypeDecl} {d : TypeDef}
    (h : table.typeDef decl = .ok d) : ∀ t ∈ d.types, (⟨table, d.generics⟩ : Scope).Reads t := by
  obtain ⟨-, hgenerics, hattributes, hbase, hmembers, hunderlying⟩ := typeDef_ok h
  rw [hgenerics]
  intro t ht
  obtain ht | ht | ⟨a, ha, ht⟩ | ⟨m, hm, ht⟩ := TypeDef.mem_types.mp ht
  · obtain ⟨text, -, hread⟩ := option_mapM_ok hbase t ht
    exact ⟨_, text, hread⟩
  · rcases hunderlying with ⟨text, u, hread, hsome⟩ | ⟨-, hnone⟩
    · obtain rfl : u = t := by simpa [hsome] using ht
      exact ⟨_, text, hread⟩
    · simp [hnone] at ht
  · exact Scope.attributes_read hattributes a ha t ht
  · exact forall_of_mapM hmembers (fun _ _ _ hread => Scope.memberOf_reads hread) m hm t ht

namespace Assembly

/-- An assembly each of whose stored types fits over the parameters of its declaration and has
arrays of allowed dimensions, and whose attributes have classes without parameters. -/
structure StoresSoundTypes (asm : Assembly) : Prop where
  fits : ∀ symbol d, asm.def? symbol = some d → ∀ t ∈ d.types, t.Fits asm (Ty.InScope d.generics)
  ranked : ∀ symbol d, asm.def? symbol = some d → ∀ t ∈ d.types, t.Ranked
  attributes : ∀ symbol d, asm.def? symbol = some d → ∀ a ∈ d.allAttributes,
    ∃ declared, asm.def? a.symbol = some declared ∧ declared.generics = []

theorem storesSoundTypes_of_load {asm : Assembly} {documents : List Document}
    (h : load documents = .ok asm) : asm.StoresSoundTypes := by
  have hwf := wellFormed_of_load h
  rw [load, ofDecls] at h
  obtain ⟨-, defs, hdefs, rfl⟩ := build_ok h
  constructor
  case fits =>
    intro symbol d hd t ht
    obtain ⟨decl, -, hdecl⟩ := build_def? hdefs hd
    obtain ⟨context, text, hread⟩ := NameTable.typeDef_reads hdecl t ht
    exact Scope.typeOf_fits (describes_ofDecls hdefs) hread
  case ranked =>
    intro symbol d hd t ht
    obtain ⟨decl, -, hdecl⟩ := build_def? hdefs hd
    obtain ⟨context, text, hread⟩ := NameTable.typeDef_reads hdecl t ht
    exact Scope.typeOf_ranked hread
  case attributes =>
    intro symbol d hd a ha
    rcases List.mem_append.mp ha with ha | ha
    · exact ((hwf.defs symbol d hd).attributes a ha).declared
    · obtain ⟨m, hm, ha⟩ := List.mem_flatMap.mp ha
      exact (((hwf.defs symbol d hd).members m hm).attributes a ha).declared

end Assembly

/-! ### What the nodes of a graph hold -/

/-- All types of a node: its own, its bases, those its members are declared and formatted with, its
variants, its elements and its formatter. -/
def Node.types (node : Node) : List Ty :=
  (node.self :: node.bases ++ node.members.map (·.declared) ++
    node.members.filterMap (·.formatter) ++ node.variants.map (·.type) ++ node.elements ++
    node.formatter.toList).map (·.type)

namespace Setting

variable {s : Setting} {t u : Ty}

/-- What a type may lead to: its bases and itself, and what a declaration among these stores, with
arguments put in; and the parts of the type. -/
inductive LeadsTo (s : Setting) (t : Ty) : Ty → Prop
  | chain {u : Ty} (hchain : s.OnChain t u) : LeadsTo s t u
  | stored {level written : Ty} {symbol : Symbol} {d : TypeDef} (hchain : s.OnChain t level)
      (hsymbol : level.symbol? = some symbol) (hd : s.assembly.def? symbol = some d)
      (hstored : written ∈ d.types) : LeadsTo s t (written.subst level.args)
  | underlying {symbol : Symbol} {d : TypeDef} {u : Ty} (hsymbol : t.symbol? = some symbol)
      (hd : s.assembly.def? symbol = some d) (hunderlying : d.underlying = some u) : LeadsTo s t u
  | element {element : Ty} {rank : Nat} (harray : t = .array element rank) : LeadsTo s t element
  | argument {u : Ty} (hargument : u ∈ t.args) : LeadsTo s t u

theorem LeadsTo.fits {scope : Nat → String → Prop} (hwf : s.assembly.WellFormed)
    (hsound : s.assembly.StoresSoundTypes) (ht : t.Fits s.assembly scope) (h : s.LeadsTo t u) :
    u.Fits s.assembly Ty.AnyParam := by
  cases h with
  | chain hchain => exact (hchain.fits hwf ht).anyParam
  | stored hchain hsymbol hd hstored =>
    obtain ⟨hlength, hargs⟩ := (hchain.fits hwf ht).args hsymbol hd
    exact ((hsound.fits _ _ hd _ hstored).subst_args hlength hargs).anyParam
  | underlying hsymbol hd hunderlying =>
    exact ((hwf.defs _ _ hd).underlying u hunderlying).anyParam
  | element harray =>
    subst harray
    exact (Ty.fits_array.mp ht).anyParam
  | argument hu =>
    cases t with
    | named symbol args => exact ((Ty.fits_named.mp ht).2 u hu).anyParam
    | array element rank => simp [Ty.args] at hu
    | param index name => simp [Ty.args] at hu

theorem IsBase.ranked (hsound : s.assembly.StoresSoundTypes) (ht : t.Ranked) {symbol : Symbol}
    (h : s.IsBase t u symbol) : u.Ranked := by
  obtain ⟨written, hwritten, rfl, -⟩ := h
  obtain ⟨own, -, hbase⟩ := Option.bind_eq_some_iff.mp hwritten
  obtain ⟨d, hd, hdbase⟩ := Option.bind_eq_some_iff.mp hbase
  exact (hsound.ranked own d hd _ (TypeDef.mem_types.mpr (.inl hdbase))).subst ht.args

theorem Above.ranked (hsound : s.assembly.StoresSoundTypes) {seen : List Symbol}
    (h : s.Above seen t u) (ht : t.Ranked) : u.Ranked := by
  induction h with
  | base hbase _ => exact hbase.ranked hsound ht
  | further hbase _ _ ih => exact ih (hbase.ranked hsound ht)

theorem OnChain.ranked (hsound : s.assembly.StoresSoundTypes) (ht : t.Ranked)
    (h : s.OnChain t u) : u.Ranked := by
  rcases h with rfl | habove
  · exact ht
  · exact habove.ranked hsound ht

theorem LeadsTo.ranked (hsound : s.assembly.StoresSoundTypes) (ht : t.Ranked)
    (h : s.LeadsTo t u) : u.Ranked := by
  cases h with
  | chain hchain => exact hchain.ranked hsound ht
  | stored hchain _ hd hstored =>
    exact (hsound.ranked _ _ hd _ hstored).subst (hchain.ranked hsound ht).args
  | underlying _ hd hunderlying =>
    exact hsound.ranked _ _ hd _ (TypeDef.mem_types.mpr (.inr (.inl hunderlying)))
  | element harray =>
    subst harray
    exact (Ty.ranked_array.mp ht).1
  | argument hu => exact ht.args u hu

/-! ### The parts of a node -/

theorem exists_of_formatterOf {attributes : List Attribute} {context : List Ty} {place : String}
    {r : NamedType} (h : (s.formatterOf attributes context place).1 = some r) :
    ∃ a ∈ attributes, ∃ written ∈ a.types, r = s.named (written.subst context) := by
  unfold formatterOf at h
  split at h
  · simp at h
  · rename_i a hfound
    split at h
    · rename_i written rest hargs
      obtain rfl : s.named (written.subst context) = r := by simpa using h
      refine ⟨a, List.mem_of_find?_eq_some hfound, written, ?_, rfl⟩
      exact Attribute.mem_types.mpr (hargs ▸ List.mem_cons_self)
    · simp at h

theorem nodeOf_formatter : (s.nodeOf t).formatter =
    (s.formatterOf (s.attributesAt t) t.args (s.assembly.typeName t).text).1 := by
  cases hkind : s.kindOf t <;> simp [nodeOf, hkind, attributesAt, named_name]

/-- A level of the chain of a type leads to what its data members store. -/
theorem leadsTo_of_mem_dataAt {level written : Ty} (hchain : s.OnChain t level) {m : Member}
    (hm : m ∈ s.dataAt level) (h : written ∈ m.types) :
    s.LeadsTo t (written.subst level.args) := by
  obtain ⟨symbol, d, hsymbol, hd, hmem, -⟩ := mem_dataAt hm
  exact .stored hchain hsymbol hd (TypeDef.mem_types.mpr (.inr (.inr (.inr ⟨m, hmem, h⟩))))

theorem leadsTo_of_mem_attributesAt {written : Ty} {a : Attribute} (ha : a ∈ s.attributesAt t)
    (h : written ∈ a.types) : s.LeadsTo t (written.subst t.args) := by
  obtain ⟨symbol, d, hsymbol, hd, hmem⟩ := mem_attributesAt ha
  exact .stored (.inl rfl) hsymbol hd (TypeDef.mem_types.mpr (.inr (.inr (.inl ⟨a, hmem, h⟩))))

theorem onChain_of_mem_levelsOf {level : Level} (h : level ∈ s.levelsOf t) :
    s.OnChain t level.type.type := by
  rcases List.mem_cons.mp h with rfl | h
  · exact .inl rfl
  · obtain ⟨u, habove, rfl⟩ := above_of_mem_basesAbove h
    exact .inr habove

/-- A type leads to all that its node holds. -/
theorem leadsTo_of_mem_types (h : u ∈ (s.nodeOf t).types) : s.LeadsTo t u := by
  obtain ⟨r, hr, rfl⟩ := List.mem_map.mp h
  simp only [List.mem_append, List.mem_cons, List.mem_map, List.mem_filterMap,
    Option.mem_toList] at hr
  obtain (((((rfl | hbase) | ⟨n, hn, rfl⟩) | ⟨n, hn, hformatter⟩) | ⟨v, hv, rfl⟩) | helement) |
    hformatter := hr
  · rw [nodeOf_self]
    exact .chain (.inl rfl)
  · rw [nodeOf_bases] at hbase
    split at hbase
    · obtain ⟨level, hlevel, rfl⟩ := List.mem_map.mp (List.mem_filter.mp hbase).1
      exact .chain (onChain_of_mem_levelsOf (List.mem_cons_of_mem _ hlevel))
    · simp at hbase
  · obtain ⟨-, level, hlevel, m, hm, type, key, htype, -, rfl⟩ := mem_nodeOf_members_iff.mp hn
    exact leadsTo_of_mem_dataAt (onChain_of_mem_levelsOf hlevel) hm
      (Member.mem_types.mpr (.inl htype))
  · obtain ⟨-, level, hlevel, m, hm, type, key, -, -, rfl⟩ := mem_nodeOf_members_iff.mp hn
    obtain ⟨a, ha, written, hwritten, rfl⟩ := exists_of_formatterOf hformatter
    exact leadsTo_of_mem_dataAt (onChain_of_mem_levelsOf hlevel) hm
      (Member.mem_types.mpr (.inr (.inr ⟨a, ha, hwritten⟩)))
  · obtain ⟨-, a, ha, -, tag, written, hargs, -, rfl⟩ := mem_nodeOf_variants_iff.mp hv
    exact leadsTo_of_mem_attributesAt ha (Attribute.mem_types.mpr (by simp [hargs]))
  · obtain ⟨shape, -, ⟨element, rank, harray, rfl⟩ | ⟨u, hu, rfl⟩⟩ |
      ⟨-, symbol, d, u, hsymbol, hd, hunderlying, rfl⟩ := mem_nodeOf_elements_iff.mp helement
    · exact .element harray
    · exact .argument hu
    · exact .underlying hsymbol hd hunderlying
  · rw [nodeOf_formatter] at hformatter
    obtain ⟨a, ha, written, hwritten, rfl⟩ := exists_of_formatterOf hformatter
    exact leadsTo_of_mem_attributesAt ha hwritten

theorem Refers.leadsTo (h : s.Refers t u) : s.LeadsTo t u := by
  cases h with
  | base _ habove _ => exact .chain (.inr habove)
  | member _ hlevel hdata _ htype _ =>
    exact leadsTo_of_mem_dataAt hlevel hdata (Member.mem_types.mpr (.inl htype))
  | variant _ ha _ hargs _ =>
    exact leadsTo_of_mem_attributesAt ha (Attribute.mem_types.mpr (by simp [hargs]))
  | element _ harray => exact .element harray
  | argument _ hu => exact .argument hu
  | underlying _ hsymbol hd hunderlying => exact .underlying hsymbol hd hunderlying

theorem ReachedIn.ranked (hsound : s.assembly.StoresSoundTypes) {root : Ty} (hroot : root.Ranked)
    {k : Nat} (h : s.ReachedIn root k t) : t.Ranked := by
  induction h with
  | root => exact hroot
  | step _ hrefers ih => exact hrefers.leadsTo.ranked hsound ih

theorem rootType_ranked (asm : Assembly) (symbol : Symbol) :
    (TypeGraph.rootType asm symbol).Ranked := by
  rw [TypeGraph.rootType, Ty.definition, Ty.ranked_named]
  intro t ht
  obtain ⟨index, _, rfl⟩ := List.mem_mapIdx.mp ht
  exact Ty.ranked_param

/-- What a node of a graph leads to fits and has arrays of allowed dimensions. -/
theorem LeadsTo.sound_of_graphOf {documents : List Document}
    (hload : Assembly.load documents = .ok s.assembly) {control : RunControl} {symbol : Symbol}
    (hsymbol : symbol.index < s.assembly.defs.size) {graph : TypeGraph}
    (hgraph : s.graphOf control symbol = .ok graph) {node : Node} (hnode : node ∈ graph.nodes)
    (h : s.LeadsTo node.self.type t) : t.Fits s.assembly Ty.AnyParam ∧ t.Ranked := by
  have hwf := Assembly.wellFormed_of_load hload
  have hsound := Assembly.storesSoundTypes_of_load hload
  obtain ⟨_, -, hexplored⟩ := TypeGraph.explored_of_graphOf hwf hsymbol hgraph
  obtain ⟨i, hi⟩ := Array.mem_iff_getElem?.mp hnode
  obtain ⟨k, u, hu, rfl⟩ := hexplored.reached i node hi
  rw [nodeOf_self, named_type] at h
  have hfits := hu.fits hwf (rootType_fits hsymbol)
  have hranked := hu.ranked hsound (rootType_ranked s.assembly symbol)
  exact ⟨h.fits hwf hsound hfits, h.ranked hsound hranked⟩

/-- The types that a node of a graph holds fit and have arrays of allowed dimensions. -/
theorem sound_of_mem_types {documents : List Document}
    (hload : Assembly.load documents = .ok s.assembly) {control : RunControl} {symbol : Symbol}
    (hsymbol : symbol.index < s.assembly.defs.size) {graph : TypeGraph}
    (hgraph : s.graphOf control symbol = .ok graph) {node : Node} (hnode : node ∈ graph.nodes)
    (h : t ∈ node.types) : t.Fits s.assembly Ty.AnyParam ∧ t.Ranked := by
  have hwf := Assembly.wellFormed_of_load hload
  apply LeadsTo.sound_of_graphOf hload hsymbol hgraph hnode
  obtain ⟨u, -, rfl⟩ := (TypeGraph.complete_of_graphOf hwf hsymbol hgraph).made node hnode
  rw [nodeOf_self, named_type]
  exact leadsTo_of_mem_types h

end Setting

namespace Assembly

/-- An assembly in which nothing that is looked up is missing: its stored types are sound, its roots
are declared, and what the nodes of its graphs hold is sound, up to the levels that members come
from. -/
structure TypesSound (asm : Assembly) : Prop extends asm.StoresSoundTypes where
  roots : ∀ s : Setting, s.assembly = asm → ∀ root ∈ s.rootCandidates, root.index < asm.defs.size
  held : ∀ (s : Setting) (control : RunControl) (root : Symbol) (graph : TypeGraph),
    s.assembly = asm → root.index < asm.defs.size → s.graphOf control root = .ok graph →
      ∀ node ∈ graph.nodes, ∀ t ∈ node.types ++
        (s.levelsOf node.self.type).map (·.type.type), t.Fits asm Ty.AnyParam ∧ t.Ranked

/-- In a loaded assembly every type that a declaration stores, and every type that a graph holds, is
made of declarations with the arguments they ask for, of parameters in scope, and of arrays of
allowed dimensions; and the classes of attributes are declarations without parameters. -/
theorem typesSound_of_load {asm : Assembly} {documents : List Document}
    (h : load documents = .ok asm) : asm.TypesSound where
  toStoresSoundTypes := storesSoundTypes_of_load h
  roots := by
    rintro s rfl root hroot
    have hcandidate := (List.mem_filter.mp hroot).2
    cases hd : s.assembly.def? root with
    | none => simp [Setting.isRootCandidate, hd] at hcandidate
    | some d => exact (Array.getElem?_eq_some_iff.mp hd).1
  held := by
    rintro s control root graph rfl hroot hgraph node hnode t ht
    rcases List.mem_append.mp ht with ht | ht
    · exact Setting.sound_of_mem_types h hroot hgraph hnode ht
    · obtain ⟨level, hlevel, rfl⟩ := List.mem_map.mp ht
      apply Setting.LeadsTo.sound_of_graphOf h hroot hgraph hnode
      exact .chain (Setting.onChain_of_mem_levelsOf hlevel)

end Assembly

/-- A generic box with an array, and a crate that is a box of values that may be absent. -/
def crateDocument : Document where
  types := [
    { name := "App.Size", kind := .enumeration, underlying := some "byte" },
    { name := "App.Box", kind := .concreteClass, generics := ["T"],
      attributes := [.bare "MessagePack.MessagePackObjectAttribute"],
      members := [
        { name := "Content", type := some "T[,]",
          attributes := [.full "MessagePack.KeyAttribute" [.value (.number (.integer 0))]] },
        { name := "Swap", kind := .method, params := ["(T, int)"] }] },
    { name := "App.Crate", kind := .concreteClass, base := some "App.Box<App.Size?>",
      attributes := [
        .bare "MessagePack.MessagePackObjectAttribute",
        .full "MessagePack.MessagePackFormatterAttribute" [.typeOf "App.Box<int>[]"]] }]

def crateDefs : List TypeDef := [
  { name := "App.Size", kind := .enumeration, generics := [], base := none,
    underlying := some (.named ⟨1⟩ []), attributes := [], members := [] },
  { name := "App.Box", kind := .concreteClass, generics := ["T"], base := none,
    underlying := none, attributes := [⟨⟨90⟩, []⟩],
    members := [
      { name := "Content", kind := .property, type := some (.array (.param 0 "T") 2), params := [],
        access := .everyone, isStatic := false, attributes := [⟨⟨91⟩, [.int 0]⟩] },
      { name := "Swap", kind := .method, type := none,
        params := [.named ⟨75⟩ [.param 0 "T", .named ⟨5⟩ []]],
        access := .everyone, isStatic := false, attributes := [] }] },
  { name := "App.Crate", kind := .concreteClass, generics := [],
    base := some (.named ⟨97⟩ [.named ⟨67⟩ [.named ⟨96⟩ []]]), underlying := none,
    attributes := [⟨⟨90⟩, []⟩, ⟨⟨95⟩, [.type (.array (.named ⟨97⟩ [.named ⟨5⟩ []]) 1)]⟩],
    members := [] }]

def crateSetting : Setting := .ofDefs crateDefs {}

/-- The nodes of the crate: itself, its base, the array in it, its element, and what that is. -/
def crateGraph : TypeGraph :=
  ⟨#[crateSetting.nodeOf (.named ⟨98⟩ []),
    crateSetting.nodeOf (.named ⟨97⟩ [.named ⟨67⟩ [.named ⟨96⟩ []]]),
    crateSetting.nodeOf (.array (.named ⟨67⟩ [.named ⟨96⟩ []]) 2),
    crateSetting.nodeOf (.named ⟨67⟩ [.named ⟨96⟩ []]),
    crateSetting.nodeOf (.named ⟨96⟩ []), crateSetting.nodeOf (.named ⟨1⟩ [])]⟩

theorem loads_crateDocument : Assembly.load [crateDocument] = .ok crateSetting.assembly ∧
    Setting.of? crateSetting.assembly [] {} = some crateSetting :=
  Setting.loads_ofDefs (by decide +kernel) (toOption_eq_some_iff.mp (by decide +kernel)) {}

theorem crateSetting_typesSound : Assembly.load [crateDocument] = .ok crateSetting.assembly ∧
    crateSetting.graphOf {} ⟨98⟩ = .ok crateGraph ∧ crateSetting.assembly.TypesSound :=
  ⟨loads_crateDocument.1, TypeGraph.graphOf_eq_ok rfl (by decide +kernel),
    Assembly.typesSound_of_load loads_crateDocument.1⟩

end FormatterPlan
