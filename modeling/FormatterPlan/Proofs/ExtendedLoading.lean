import FormatterPlan.Proofs.ExtendedNodes
import FormatterPlan.Proofs.PrintedNames
import FormatterPlan.Proofs.RenumberedRoles

/-! Loading next to further documents.  Declarations that are added at the end leave the symbols of
the others as they are.  A name goes on standing for the same declaration if no added one has this
full name or last segment.  That is asked of the names that are written; keywords stand for
declarations of the prelude by their full names, and so do the names that stand behind tuples and
types that may be absent, for a dotted name is no last segment. -/

namespace FormatterPlan

/-! ### Written names -/

namespace TypeExpr

mutual

/-- The names in a type reference, those of parameters included. -/
def names : TypeExpr → List String
  | .named name args => name :: namesOfAll args
  | .array element _ => names element
  | .tuple elements => namesOfAll elements
  | .nullable inner => names inner

def namesOfAll : List TypeExpr → List String
  | [] => []
  | expr :: rest => names expr ++ namesOfAll rest

end

/-- The names in a text that is a type reference. -/
def namesIn (text : String) : List String :=
  match parse text with
  | .ok expr => expr.names
  | .error _ => []

end TypeExpr

def ArgumentDecl.usedNames : ArgumentDecl → List String
  | .typeOf text => TypeExpr.namesIn text
  | .value _ => []

def AttributeDecl.usedNames (decl : AttributeDecl) : List String :=
  decl.className :: decl.args.flatMap (·.usedNames)

def MemberDecl.usedNames (decl : MemberDecl) : List String :=
  (decl.type.toList ++ decl.params).flatMap TypeExpr.namesIn ++
    decl.attributes.flatMap (·.usedNames)

/-- The names in the type references and attributes of a declaration. -/
def TypeDecl.usedNames (decl : TypeDecl) : List String :=
  (decl.base.toList ++ decl.underlying.toList).flatMap TypeExpr.namesIn ++
    decl.attributes.flatMap (·.usedNames) ++ decl.members.flatMap (·.usedNames)

/-- Whether a name cannot mean a declaration: it is neither its full name nor its last segment. -/
def TypeDecl.IsApartFrom (decl : TypeDecl) (name : String) : Prop :=
  decl.name ≠ name ∧ Text.lastSegment decl.name ≠ name

instance (decl : TypeDecl) (name : String) : Decidable (decl.IsApartFrom name) :=
  inferInstanceAs (Decidable (_ ∧ _))

/-- Whether further declarations have nothing to do with those of documents: no name that these use
can mean one of them, not even with the ending of attributes, and none of them has a metadata name
that has a role. -/
structure Unrelated (documents further : List Document) : Prop where
  apart : ∀ added ∈ further.flatMap (·.types), ∀ decl ∈ documents.flatMap (·.types),
    ∀ name ∈ decl.usedNames,
      added.IsApartFrom name ∧ added.IsApartFrom (name ++ NameTable.attributeEnding)
  plain : ∀ added ∈ further.flatMap (·.types),
    metadataName added.name added.generics.length ∉ Roles.names

/-! ### Results that last -/

/-- Whether the result of a step, if it has one, is also that of another step. -/
def Lasts {ε α : Type} (x y : Except ε α) : Prop := ∀ a, x = .ok a → y = .ok a

namespace Lasts

variable {ε α β : Type} {x y : Except ε α}

theorem refl : Lasts x x := fun _ h => h

theorem of_eq (h : x = y) : Lasts x y := h ▸ .refl

theorem bind {k k' : α → Except ε β} (h : Lasts x y)
    (hk : ∀ a, x = .ok a → Lasts (k a) (k' a)) : Lasts (x >>= k) (y >>= k') := by
  intro b hb
  obtain ⟨a, ha, hb⟩ := bind_eq_ok_iff.mp hb
  exact bind_eq_ok_iff.mpr ⟨a, h a ha, hk a ha b hb⟩

theorem some (h : Lasts x y) : Lasts (Option.some <$> x) (Option.some <$> y) := by
  intro b hb
  obtain ⟨a, ha, hb⟩ := map_eq_ok_iff.mp hb
  exact map_eq_ok_iff.mpr ⟨a, h a ha, hb⟩

theorem mapM {k k' : α → Except ε β} {as : List α} (hk : ∀ a ∈ as, Lasts (k a) (k' a)) :
    Lasts (as.mapM k) (as.mapM k') := by
  induction as with
  | nil => exact .refl
  | cons a as ih =>
    rw [List.mapM_cons, List.mapM_cons]
    refine (hk a List.mem_cons_self).bind fun b _ => ?_
    exact (ih fun a ha => hk a (List.mem_cons_of_mem _ ha)).bind fun bs _ => .refl

theorem optionMapM {k k' : α → Except ε β} {a : Option α}
    (hk : ∀ b ∈ a, Lasts (k b) (k' b)) : Lasts (a.mapM k) (a.mapM k') := by
  cases a with
  | none => exact .refl
  | some a =>
    rw [Option.mapM_some, Option.mapM_some]
    exact (hk a (Option.mem_some_self a)).some

end Lasts

/-! ### Names in a larger table -/

theorem dot_notMem_lastSegment (name : String) : '.' ∉ (Text.lastSegment name).toList := by
  rw [Text.lastSegment]
  cases hsplit : Text.splitLast '.' name.toList with
  | none => exact splitLast_eq_none_iff.mp hsplit
  | some found => simpa using notMem_of_splitLast hsplit

namespace NameTable

variable {table extra : NameTable} {name : String}

theorem ofDecls_append (decls more : List TypeDecl) : ofDecls (decls ++ more) =
    ofDecls decls ++ (more.zipIdx decls.length).map fun (decl, index) => entryOf decl index := by
  rw [ofDecls, List.zipIdx_append, List.map_append, Nat.zero_add, ofDecls]

/-- A candidate goes on standing for what it did if it is found by its full name, or if no further
entry has it as its full name or last segment. -/
theorem resolveCandidate_append {candidate : String} {arity : Nat}
    (h : (table.byFullName? candidate arity).isSome = true ∨
      ∀ e ∈ extra, e.name ≠ candidate ∧ e.simpleName ≠ candidate) :
    NameTable.resolveCandidate (table ++ extra) candidate arity =
      table.resolveCandidate candidate arity := by
  unfold resolveCandidate byFullName? bySimpleName
  rw [List.find?_append, List.filter_append]
  rcases h with hfull | hapart
  · obtain ⟨e, he⟩ := Option.isSome_iff_exists.mp hfull
    rw [byFullName?] at he
    rw [he, Option.some_or]
  · have hfind : extra.find? (fun e => e.arity == arity && e.name == candidate) = none :=
      List.find?_eq_none.mpr fun e he => by simp [(hapart e he).1]
    have hfilter : extra.filter (fun e => e.arity == arity && e.simpleName == candidate) = [] :=
      List.filter_eq_nil_iff.mpr fun e he => by simp [(hapart e he).2]
    rw [hfind, hfilter, Option.or_none, List.append_nil]

/-- A name is resolved to the same, or fails the same, if its candidates stand for the same. -/
theorem resolve_append {arity : Nat} {isAttribute : Bool}
    (h : ∀ candidate ∈ candidates name arity isAttribute,
      (table.byFullName? candidate arity).isSome = true ∨
        ∀ e ∈ extra, e.name ≠ candidate ∧ e.simpleName ≠ candidate) (context : String) :
    NameTable.resolve (table ++ extra) context name arity isAttribute =
      table.resolve context name arity isAttribute := by
  have hfirst : (candidates name arity isAttribute).findSome?
      (NameTable.resolveCandidate (table ++ extra) · arity) =
        (candidates name arity isAttribute).findSome? (table.resolveCandidate · arity) := by
    rw [← List.head?_filterMap, ← List.head?_filterMap]
    exact congrArg List.head? (List.filterMap_congr fun candidate hcandidate =>
      resolveCandidate_append (h candidate hcandidate))
  rw [resolve, resolve, hfirst]

theorem candidates_of_dot (h : '.' ∈ name.toList) (arity : Nat) :
    candidates name arity false = [name] := by
  simp [candidates, lookup_keywordAliases_of_dot h]

/-- A dotted name is no last segment, so what it stands for has it as its full name. -/
theorem resolve_append_of_dot (hsimple : ∀ e ∈ table, '.' ∉ e.simpleName.toList)
    (h : '.' ∈ name.toList) (context : String) (arity : Nat) :
    Lasts (table.resolve context name arity false)
      (NameTable.resolve (table ++ extra) context name arity false) := by
  intro symbol hsymbol
  have hfull : (table.byFullName? name arity).isSome = true := by
    by_contra hnone
    rw [Bool.not_eq_true, Option.isSome_eq_false_iff, Option.isNone_iff_eq_none] at hnone
    have hnil : table.bySimpleName name arity = [] :=
      List.filter_eq_nil_iff.mpr fun e he hkey => by
        rw [Bool.and_eq_true, beq_iff_eq, beq_iff_eq] at hkey
        exact hsimple e he (hkey.2 ▸ h)
    rw [resolve, candidates_of_dot h, List.findSome?_singleton, resolveCandidate, hnone, hnil]
      at hsymbol
    simp at hsymbol
  rw [resolve_append (fun candidate hcandidate => ?_), hsymbol]
  rw [candidates_of_dot h, List.mem_singleton] at hcandidate
  exact .inl (hcandidate ▸ hfull)

/-- A keyword stands for the declaration with the full name of its type, its first choice. -/
theorem resolve_append_of_keyword {target : String} (h : keywordAliases.lookup name = some target)
    (hfull : (table.byFullName? target 0).isSome = true) (context : String) :
    NameTable.resolve (table ++ extra) context name 0 false =
      table.resolve context name 0 false := by
  obtain ⟨e, he⟩ := Option.isSome_iff_exists.mp hfull
  have hfirst : table.resolveCandidate target 0 = some (.ok e.symbol) := by
    rw [resolveCandidate, he]
  have hfirst' : NameTable.resolveCandidate (table ++ extra) target 0 = some (.ok e.symbol) := by
    rw [resolveCandidate_append (.inl hfull), hfirst]
  simp only [resolve, candidates, h, if_true, Option.toList_some, List.cons_append,
    List.findSome?_cons, hfirst, hfirst']

theorem mem_candidates {candidate : String} {arity : Nat} {isAttribute : Bool}
    (h : candidate ∈ candidates name arity isAttribute) :
    (arity = 0 ∧ keywordAliases.lookup name = some candidate) ∨ candidate = name ∨
      candidate = name ++ attributeEnding := by
  rw [candidates, List.mem_append, List.mem_append, List.mem_singleton] at h
  rcases h with (h | h) | h
  · split at h
    · exact .inl ⟨‹_›, Option.mem_toList.mp h⟩
    · simp at h
  · exact .inr (.inl h)
  · split at h
    · exact .inr (.inr (List.mem_singleton.mp h))
    · simp at h

/-- Whether what names stand for in a table, they stand for in another one: those of a list, all
dotted names and all keywords. -/
structure Keeps (names : List String) (asm : Assembly) (table table' : NameTable) : Prop where
  describes : table.Describes asm
  isValueType : ∀ {symbol : Symbol} {d : TypeDef}, asm.def? symbol = some d →
    table'.isValueType symbol = table.isValueType symbol
  written : ∀ {name : String}, name ∈ names → ∀ context arity isAttribute,
    Lasts (table.resolve context name arity isAttribute)
      (table'.resolve context name arity isAttribute)
  dotted : ∀ {name : String}, '.' ∈ name.toList → ∀ context arity,
    Lasts (table.resolve context name arity false) (table'.resolve context name arity false)
  keyword : ∀ {name : String}, (keywordAliases.lookup name).isSome = true → ∀ context,
    Lasts (table.resolve context name 0 false) (table'.resolve context name 0 false)

end NameTable

/-! ### Types, attributes and members in a scope -/

theorem TypeExpr.parse_defaultUnderlying :
    TypeExpr.parse defaultUnderlying = .ok (.named defaultUnderlying []) := by
  have hwritable : (TypeExpr.named defaultUnderlying []).Writable := by
    rw [TypeExpr.writable_named]
    exact ⟨by decide +kernel, List.forall_mem_nil _⟩
  have htext : (TypeExpr.named defaultUnderlying []).text = defaultUnderlying := by
    rw [TypeExpr.text]
  rw [← hwritable.parse_text, htext]

namespace Scope

variable {names : List String} {asm : Assembly} {table table' : NameTable}

theorem nullable_lasts (h : table.Keeps names asm table') {generics : List String}
    (context : String) {inner : Ty} (hinner : inner.Fits asm (Ty.InScope generics)) :
    Lasts ((⟨table, generics⟩ : Scope).nullable context inner)
      ((⟨table', generics⟩ : Scope).nullable context inner) := by
  cases inner with
  | named symbol args =>
    obtain ⟨⟨d, hd, -⟩, -⟩ := Ty.fits_named.mp hinner
    unfold nullable
    dsimp only
    rw [h.isValueType hd]
    split
    · exact (h.dotted (by decide +kernel) context 1).bind fun _ _ => .refl
    · exact .refl
  | array element rank => exact .refl
  | param index name => exact .refl

mutual

/-- A type reference goes on standing for the same type if its names stand for the same. -/
theorem resolve_lasts (h : table.Keeps names asm table') (generics : List String)
    (context : String) : ∀ {expr : TypeExpr}, expr.names ⊆ names →
      Lasts ((⟨table, generics⟩ : Scope).resolve context expr)
        ((⟨table', generics⟩ : Scope).resolve context expr)
  | .named name [], hnames => by
    rw [TypeExpr.names, List.cons_subset] at hnames
    rw [resolve, resolve]
    dsimp only
    split
    · exact .refl
    · exact (h.written hnames.1 context 0 false).bind fun _ _ => .refl
  | .named name (arg :: args), hnames => by
    rw [TypeExpr.names, TypeExpr.namesOfAll, List.cons_subset, List.append_subset] at hnames
    rw [resolve, resolve]
    refine (h.written hnames.1 context _ false).bind fun _ _ => ?_
    refine (resolve_lasts h generics context hnames.2.1).bind fun _ _ => ?_
    exact (resolveAll_lasts h generics context hnames.2.2).bind fun _ _ => .refl
  | .array element rank, hnames => by
    rw [TypeExpr.names] at hnames
    rw [resolve, resolve]
    exact (resolve_lasts h generics context hnames).bind fun _ _ => .refl
  | .tuple elements, hnames => by
    rw [TypeExpr.names] at hnames
    rw [resolve, resolve]
    refine (h.dotted (by decide +kernel) context _).bind fun _ _ => ?_
    exact (resolveAll_lasts h generics context hnames).bind fun _ _ => .refl
  | .nullable inner, hnames => by
    rw [TypeExpr.names] at hnames
    rw [resolve, resolve]
    -- What is resolved is a type over declarations of the smaller table, so its kind is the same.
    refine (resolve_lasts h generics context hnames).bind fun t ht => ?_
    exact nullable_lasts h context (resolve_fits h.describes ht)

theorem resolveAll_lasts (h : table.Keeps names asm table') (generics : List String)
    (context : String) : ∀ {exprs : List TypeExpr}, TypeExpr.namesOfAll exprs ⊆ names →
      Lasts ((⟨table, generics⟩ : Scope).resolveAll context exprs)
        ((⟨table', generics⟩ : Scope).resolveAll context exprs)
  | [], _ => by
    rw [resolveAll, resolveAll]
    exact .refl
  | expr :: rest, hnames => by
    rw [TypeExpr.namesOfAll, List.append_subset] at hnames
    rw [resolveAll, resolveAll]
    refine (resolve_lasts h generics context hnames.1).bind fun _ _ => ?_
    exact (resolveAll_lasts h generics context hnames.2).bind fun _ _ => .refl

end

section

variable (h : table.Keeps names asm table') (generics : List String) (context : String)

include h

theorem typeOf_lasts {text : String} (hnames : TypeExpr.namesIn text ⊆ names) :
    Lasts ((⟨table, generics⟩ : Scope).typeOf context text)
      ((⟨table', generics⟩ : Scope).typeOf context text) := by
  unfold TypeExpr.namesIn at hnames
  unfold typeOf
  split
  · rename_i expr hparse
    rw [hparse] at hnames
    exact resolve_lasts h generics context hnames
  · exact .refl

theorem typeOf_defaultUnderlying_lasts :
    Lasts ((⟨table, generics⟩ : Scope).typeOf context defaultUnderlying)
      ((⟨table', generics⟩ : Scope).typeOf context defaultUnderlying) := by
  unfold typeOf
  rw [TypeExpr.parse_defaultUnderlying]
  dsimp only
  rw [resolve, resolve]
  dsimp only
  split
  · exact .refl
  · exact (h.keyword (by decide +kernel) context).bind fun _ _ => .refl

theorem argumentOf_lasts {decl : ArgumentDecl} (hnames : decl.usedNames ⊆ names) :
    Lasts ((⟨table, generics⟩ : Scope).argumentOf context decl)
      ((⟨table', generics⟩ : Scope).argumentOf context decl) := by
  unfold argumentOf
  split
  · exact (typeOf_lasts h generics context hnames).bind fun _ _ => .refl
  all_goals exact .refl

theorem attributeOf_lasts {decl : AttributeDecl} (hnames : decl.usedNames ⊆ names) :
    Lasts ((⟨table, generics⟩ : Scope).attributeOf context decl)
      ((⟨table', generics⟩ : Scope).attributeOf context decl) := by
  rw [AttributeDecl.usedNames, List.cons_subset, flatMap_subset_iff] at hnames
  unfold attributeOf
  refine (h.written hnames.1 context 0 true).bind fun _ _ => ?_
  refine (Lasts.mapM fun arg harg => ?_).bind fun _ _ => .refl
  exact argumentOf_lasts h generics context (hnames.2 arg harg)

theorem attributes_last {decls : List AttributeDecl}
    (hnames : decls.flatMap (·.usedNames) ⊆ names) :
    Lasts (decls.mapM ((⟨table, generics⟩ : Scope).attributeOf context))
      (decls.mapM ((⟨table', generics⟩ : Scope).attributeOf context)) := by
  rw [flatMap_subset_iff] at hnames
  exact .mapM fun decl hdecl => attributeOf_lasts h generics context (hnames decl hdecl)

theorem memberType_lasts {decl : MemberDecl}
    (hnames : decl.type.toList.flatMap TypeExpr.namesIn ⊆ names) :
    Lasts ((⟨table, generics⟩ : Scope).memberType context decl)
      ((⟨table', generics⟩ : Scope).memberType context decl) := by
  unfold memberType
  split
  · rename_i text _ htype
    rw [htype] at hnames
    exact (typeOf_lasts h generics context (by simpa using hnames)).some
  · exact .refl
  · exact .refl

theorem memberOf_lasts (owner : String) {decl : MemberDecl} (hnames : decl.usedNames ⊆ names) :
    Lasts ((⟨table, generics⟩ : Scope).memberOf owner decl)
      ((⟨table', generics⟩ : Scope).memberOf owner decl) := by
  rw [MemberDecl.usedNames, List.flatMap_append, List.append_subset, List.append_subset] at hnames
  obtain ⟨⟨htype, hparams⟩, hattributes⟩ := hnames
  rw [flatMap_subset_iff] at hparams
  unfold memberOf
  refine (memberType_lasts h generics _ htype).bind fun _ _ => ?_
  refine (Lasts.mapM fun text htext => ?_).bind fun _ _ => ?_
  · exact typeOf_lasts h generics _ (hparams text htext)
  · exact (attributes_last h generics _ hattributes).bind fun _ _ => .refl

end

end Scope

/-- A declaration resolves to the same if that goes for the names that it uses. -/
theorem NameTable.Keeps.typeDef {names : List String} {asm : Assembly} {table table' : NameTable}
    (h : table.Keeps names asm table') {decl : TypeDecl} (hnames : decl.usedNames ⊆ names) :
    Lasts (table.typeDef decl) (table'.typeDef decl) := by
  rw [TypeDecl.usedNames, List.flatMap_append, List.append_subset, List.append_subset,
    List.append_subset] at hnames
  obtain ⟨⟨⟨hbase, hunderlying⟩, hattributes⟩, hmembers⟩ := hnames
  rw [flatMap_subset_iff] at hbase hunderlying hmembers
  unfold NameTable.typeDef
  refine (Scope.attributes_last h _ _ hattributes).bind fun _ _ => ?_
  refine (Lasts.optionMapM fun text htext => ?_).bind fun _ _ => ?_
  · exact Scope.typeOf_lasts h _ _ (hbase text (Option.mem_toList.mpr htext))
  refine (Lasts.mapM fun member hmember => ?_).bind fun _ _ => ?_
  · exact Scope.memberOf_lasts h _ _ (hmembers member hmember)
  dsimp only
  split
  · refine Lasts.bind (Lasts.some ?_) fun _ _ => .refl
    cases hwritten : decl.underlying with
    | none => exact Scope.typeOf_defaultUnderlying_lasts h _ _
    | some text => exact Scope.typeOf_lasts h _ _ (hunderlying text (by simp [hwritten]))
  · exact .refl

/-! ### Loading -/

namespace NameTable

/-- What names stand for among declarations that hold those of the prelude, they stand for when
further declarations follow that are apart from the names. -/
theorem keeps_ofDecls {names : List String} {decls more : List TypeDecl}
    {table : NameTable} {defs : List TypeDef} {preludeSize : Nat}
    (hdefs : decls.mapM table.typeDef = .ok defs) (hprelude : Prelude.decls ⊆ decls)
    (hapart : ∀ added ∈ more, ∀ name ∈ names,
      added.IsApartFrom name ∧ added.IsApartFrom (name ++ attributeEnding)) :
    (ofDecls decls).Keeps names ⟨defs.toArray, preludeSize⟩ (ofDecls (decls ++ more)) := by
  have hfull : ∀ {keyword target : String}, keywordAliases.lookup keyword = some target →
      ((ofDecls decls).byFullName? target 0).isSome = true := by
    intro keyword target hlookup
    have htargets : ∀ pair ∈ keywordAliases, pair.2 ∈ Builtin.all.map (·.metadataName) := by
      decide +kernel
    have htarget := htargets (keyword, target) (mem_of_lookup_eq_some hlookup)
    obtain ⟨b, hb, rfl⟩ := List.mem_map.mp htarget
    obtain ⟨index, hindex⟩ := List.mem_iff_getElem?.mp (hprelude (Prelude.ofBuiltin_mem hb))
    refine List.find?_isSome.mpr ⟨entryOf _ index, mem_ofDecls_iff.mpr ⟨_, hindex, rfl⟩, ?_⟩
    simp [entryOf, Prelude.ofBuiltin]
  rw [ofDecls_append]
  constructor
  case describes => exact Assembly.describes_ofDecls hdefs
  case isValueType =>
    intro symbol d hd
    obtain ⟨decl, hdecl, -⟩ := Assembly.build_def? hdefs hd
    have hlt : symbol.index < (ofDecls decls).length := by
      rw [ofDecls, List.length_map, List.length_zipIdx]
      exact (List.getElem?_eq_some_iff.mp hdecl).1
    rw [isValueType, isValueType, List.getElem?_append_left hlt]
  case written =>
    intro name hname context arity isAttribute
    refine .of_eq (resolve_append (fun candidate hcandidate => ?_) context).symm
    rcases mem_candidates hcandidate with ⟨rfl, hlookup⟩ | hspelling
    · exact .inl (hfull hlookup)
    · refine .inr fun e he => ?_
      obtain ⟨⟨added, index⟩, hadded, rfl⟩ := List.mem_map.mp he
      obtain ⟨hbare, hended⟩ := hapart added (List.fst_mem_of_mem_zipIdx hadded) name hname
      rcases hspelling with rfl | rfl
      · exact hbare
      · exact hended
  case dotted =>
    intro name hdot context arity
    refine resolve_append_of_dot (fun e he => ?_) hdot context arity
    obtain ⟨decl, -, hentry⟩ := mem_ofDecls_iff.mp he
    rw [← hentry]
    exact dot_notMem_lastSegment decl.name
  case keyword =>
    intro name hkeyword context
    obtain ⟨target, hlookup⟩ := Option.isSome_iff_exists.mp hkeyword
    exact .of_eq (resolve_append_of_keyword hlookup (hfull hlookup) context).symm

end NameTable

theorem Prelude.usedNames_eq_nil {decl : TypeDecl} (h : decl ∈ Prelude.decls) :
    decl.usedNames = [] := by
  have hall : ∀ decl ∈ Prelude.decls, decl.usedNames = [] := by decide +kernel
  exact hall decl h

/-- The roles are the same where the names that have one stand for the same. -/
theorem Roles.of?_congr {resolve resolve' : String → Option Symbol}
    (h : ∀ name ∈ names, resolve' name = resolve name) : of? resolve' = of? resolve := by
  have hrefl : ∀ roles : Roles, roles.renumber (Equiv.refl Symbol) = roles := by
    intro roles
    simp [renumber]
  have hroles : of? resolve' = (of? resolve).map (·.renumber (Equiv.refl Symbol)) :=
    of?_renumber fun name hname => by simp [h name hname]
  rw [hroles]
  simp [hrefl]

namespace Assembly

variable {documents further : List Document} {asm asm' : Assembly}

section

variable (hload : load documents = .ok asm) (hload' : load (documents ++ further) = .ok asm')
  (h : Unrelated documents further)

include hload hload' h

/-- Next to unrelated documents a declaration keeps its symbol and all that it is resolved to. -/
theorem extends_of_load : asm'.Extends asm := by
  refine ⟨fun {symbol d} hd => ?_⟩
  rw [load, Assembly.ofDecls] at hload hload'
  rw [List.flatMap_append, ← List.append_assoc] at hload'
  obtain ⟨-, defs, hdefs, rfl⟩ := build_ok hload
  obtain ⟨-, defs', hdefs', rfl⟩ := build_ok hload'
  obtain ⟨decl, hdecl, hresolved⟩ := build_def? hdefs hd
  have hapart : ∀ added ∈ further.flatMap (·.types), ∀ name ∈ decl.usedNames,
      added.IsApartFrom name ∧ added.IsApartFrom (name ++ NameTable.attributeEnding) := by
    intro added hadded name hname
    rcases List.mem_append.mp (List.mem_of_getElem? hdecl) with hprelude | huser
    · simp [Prelude.usedNames_eq_nil hprelude] at hname
    · exact h.apart added hadded decl huser name hname
  have hkeeps : (NameTable.ofDecls (Prelude.decls ++ documents.flatMap (·.types))).Keeps
      decl.usedNames ⟨defs.toArray, Prelude.decls.length⟩ _ :=
    NameTable.keeps_ofDecls hdefs (List.subset_append_left _ _) hapart
  have hlt := (List.getElem?_eq_some_iff.mp hdecl).1
  rw [def?, List.getElem?_toArray, getElem?_of_mapM hdefs', List.getElem?_append_left hlt, hdecl,
    Option.bind_some, hkeeps.typeDef (List.Subset.refl _) d hresolved]
  rfl

/-- A declaration of the larger assembly is one of the smaller, or is added. -/
theorem def?_or_added {symbol : Symbol} {d : TypeDef} (hd : asm'.def? symbol = some d) :
    asm.def? symbol = some d ∨ ∃ added ∈ further.flatMap (·.types),
      d.metadataName = metadataName added.name added.generics.length := by
  cases hold : asm.def? symbol with
  | some e =>
    have hnew := (extends_of_load hload hload' h).def? hold
    rw [hd] at hnew
    exact .inl hnew.symm
  | none =>
    refine .inr ?_
    rw [load, Assembly.ofDecls] at hload hload'
    rw [List.flatMap_append, ← List.append_assoc] at hload'
    obtain ⟨-, defs, hdefs, rfl⟩ := build_ok hload
    obtain ⟨-, defs', hdefs', rfl⟩ := build_ok hload'
    obtain ⟨added, hadded, hresolved⟩ := build_def? hdefs' hd
    obtain ⟨hname, hgenerics, -⟩ := NameTable.typeDef_ok hresolved
    rw [def?, List.getElem?_toArray, List.getElem?_eq_none_iff,
      ← (mapM_eq_ok_iff.mp hdefs).length_eq] at hold
    rw [List.getElem?_append_right hold] at hadded
    exact ⟨added, List.mem_of_getElem? hadded, by rw [TypeDef.metadataName, hname, hgenerics]⟩

/-- The metadata names that have a role stand for the same declarations. -/
theorem byMetadataName?_eq {name : String} (hname : name ∈ Roles.names) :
    asm'.byMetadataName? name = asm.byMetadataName? name := by
  have hsame : ∀ symbol,
      asm'.HasMetadataName name symbol ↔ asm.HasMetadataName name symbol := by
    intro symbol
    constructor
    · rintro ⟨d, hd, rfl⟩
      rcases def?_or_added hload hload' h hd with hold | ⟨added, hadded, heq⟩
      · exact ⟨d, hold, rfl⟩
      · exact (h.plain added hadded (heq ▸ hname)).elim
    · rintro ⟨d, hd, rfl⟩
      exact ⟨d, (extends_of_load hload hload' h).def? hd, rfl⟩
  refine Option.ext fun symbol => ?_
  simp only [byMetadataName?_eq_some_iff, hsame]

theorem ofAssembly?_eq (hidden : List String) :
    Roles.ofAssembly? asm' hidden = Roles.ofAssembly? asm hidden := by
  refine Roles.of?_congr fun name hname => ?_
  rw [byMetadataName?_eq hload hload' h hname]

end

end Assembly

end FormatterPlan
