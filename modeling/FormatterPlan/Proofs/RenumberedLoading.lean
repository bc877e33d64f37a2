import FormatterPlan.Proofs.Lists
import FormatterPlan.Proofs.PreludeRoles
import FormatterPlan.Proofs.RenumberedNodes
import Mathlib.Algebra.Group.End
import Mathlib.Data.Option.Defs
import Mathlib.Logic.Equiv.Basic

/-! Loading under new numbers.  All names are known before the first declaration is resolved, so
declarations in another order resolve to the same under new numbers, or fail in either order.  Which
of several faults is reported may differ, and so may the candidates that an error lists. -/

namespace FormatterPlan

/-! ### Steps that end alike -/

/-- Whether a step has the result of another one under a map, or both fail. -/
inductive Follows {ε α β : Type} (f : α → β) : Except ε α → Except ε β → Prop where
  | ok (a : α) : Follows f (.ok a) (.ok (f a))
  | error (e e' : ε) : Follows f (.error e) (.error e')

namespace Follows

variable {ε α β γ δ : Type} {f : α → β} {g : γ → δ} {x : Except ε α} {y : Except ε β}

theorem of_ok {a : α} (h : Follows f (.ok a) y) : y = .ok (f a) := by
  cases h
  rfl

theorem toOption (h : Follows f x y) : y.toOption = x.toOption.map f := by
  cases h <;> rfl

theorem ok_of_eq {a : α} {b : β} (h : f a = b) : Follows f (Except.ok a : Except ε α) (.ok b) :=
  h ▸ .ok a

theorem bind {k : α → Except ε γ} {k' : β → Except ε δ} (h : Follows f x y)
    (hk : ∀ a, Follows g (k a) (k' (f a))) : Follows g (x >>= k) (y >>= k') := by
  cases h with
  | ok a => exact hk a
  | error e e' => exact .error e e'

theorem some (h : Follows f x y) :
    Follows (Option.map f) (Option.some <$> x) (Option.some <$> y) := by
  cases h with
  | ok a => exact .ok (Option.some a)
  | error e e' => exact .error e e'

theorem mapM {k : γ → Except ε α} {k' : γ → Except ε β} (hk : ∀ c, Follows f (k c) (k' c))
    (cs : List γ) : Follows (List.map f) (cs.mapM k) (cs.mapM k') := by
  induction cs with
  | nil => exact .ok []
  | cons c cs ih =>
    rw [List.mapM_cons, List.mapM_cons]
    exact (hk c).bind fun a => ih.bind fun as => .ok (a :: as)

theorem optionMapM {k : γ → Except ε α} {k' : γ → Except ε β} (hk : ∀ c, Follows f (k c) (k' c))
    (c : Option γ) : Follows (Option.map f) (c.mapM k) (c.mapM k') := by
  cases c with
  | none => exact .ok none
  | some c =>
    rw [Option.mapM_some, Option.mapM_some]
    exact (hk c).some

end Follows

/-! ### Names -/

def NameEntry.renumber (r : Renumbering) (e : NameEntry) : NameEntry :=
  { e with symbol := r e.symbol }

/-- Whether a table of names is another one under new numbers, in any order. -/
structure NameTable.Renumbers (r : Renumbering) (table table' : NameTable) : Prop where
  distinct : (table.map fun e => (e.name, e.arity)).Nodup
  perm : table'.Perm (table.map (·.renumber r))
  isValueType : ∀ symbol, table'.isValueType (r symbol) = table.isValueType symbol

variable {r : Renumbering}

namespace NameTable

/-- Under different names and arities at most one entry has a full name and an arity. -/
theorem byFullName?_eq_some_iff {table : NameTable}
    (hdistinct : (table.map fun e => (e.name, e.arity)).Nodup) {name : String} {arity : Nat}
    {e : NameEntry} :
    table.byFullName? name arity = some e ↔ e ∈ table ∧ e.name = name ∧ e.arity = arity := by
  have hfound : ∀ e, table.byFullName? name arity = some e →
      e ∈ table ∧ e.name = name ∧ e.arity = arity := by
    intro e he
    have hkey := List.find?_some he
    rw [Bool.and_eq_true, beq_iff_eq, beq_iff_eq] at hkey
    exact ⟨List.mem_of_find?_eq_some he, hkey.2, hkey.1⟩
  refine ⟨hfound e, fun ⟨hmem, hname, harity⟩ => ?_⟩
  cases h : table.byFullName? name arity with
  | none =>
    have hnone := List.find?_eq_none.mp h e hmem
    simp [hname, harity] at hnone
  | some e' =>
    obtain ⟨hmem', hname', harity'⟩ := hfound e' h
    rw [List.inj_on_of_nodup_map hdistinct hmem' hmem (by rw [hname, harity, hname', harity'])]

namespace Renumbers

variable {table table' : NameTable} (h : table.Renumbers r table')

include h

theorem byFullName? (name : String) (arity : Nat) :
    table'.byFullName? name arity = (table.byFullName? name arity).map (·.renumber r) := by
  have hdistinct' : (table'.map fun e => (e.name, e.arity)).Nodup := by
    refine ((h.perm.map _).nodup_iff).mpr ?_
    rw [List.map_map]
    exact h.distinct
  refine Option.ext fun e' => ?_
  rw [byFullName?_eq_some_iff hdistinct', h.perm.mem_iff, Option.map_eq_some_iff, List.mem_map]
  simp only [byFullName?_eq_some_iff h.distinct]
  constructor
  · rintro ⟨⟨e, he, rfl⟩, hkey⟩
    exact ⟨e, ⟨he, hkey⟩, rfl⟩
  · rintro ⟨e, ⟨he, hkey⟩, rfl⟩
    exact ⟨⟨e, he, rfl⟩, hkey⟩

theorem bySimpleName (name : String) (arity : Nat) : (table'.bySimpleName name arity).Perm
    ((table.bySimpleName name arity).map (·.renumber r)) := by
  have hfilter := h.perm.filter fun e => e.arity == arity && e.simpleName == name
  rwa [List.filter_map] at hfilter

theorem resolveCandidate (candidate : String) (arity : Nat) :
    Option.Rel (Follows r) (table.resolveCandidate candidate arity)
      (table'.resolveCandidate candidate arity) := by
  have hsimple := h.bySimpleName candidate arity
  unfold NameTable.resolveCandidate
  rw [h.byFullName?]
  cases table.byFullName? candidate arity with
  | some e => exact .some (.ok e.symbol)
  | none =>
    dsimp only [Option.map_none]
    match hfound : table.bySimpleName candidate arity with
    | [] =>
      rw [hfound] at hsimple
      rw [hsimple.eq_nil]
      exact .none
    | [only] =>
      rw [hfound] at hsimple
      rw [hsimple.eq_singleton]
      exact .some (.ok only.symbol)
    | first :: second :: rest =>
      -- The candidates that the error lists may come in another order.
      rw [hfound] at hsimple
      match hfound' : table'.bySimpleName candidate arity with
      | [] | [_] => simp [hfound'] at hsimple
      | _ :: _ :: _ => exact .some (.error _ _)

/-- The first choice that stands for something does so under new numbers. -/
theorem findSome?_resolveCandidate (candidates : List String) (arity : Nat) :
    Option.Rel (Follows r) (candidates.findSome? (table.resolveCandidate · arity))
      (candidates.findSome? (table'.resolveCandidate · arity)) := by
  induction candidates with
  | nil => exact .none
  | cons candidate rest ih =>
    have hfirst := h.resolveCandidate candidate arity
    rw [List.findSome?_cons, List.findSome?_cons]
    revert hfirst
    generalize table.resolveCandidate candidate arity = x
    generalize table'.resolveCandidate candidate arity = y
    rintro (hfirst | _)
    · exact .some hfirst
    · exact ih

theorem resolve (context name : String) (arity : Nat) (isAttribute : Bool) :
    Follows r (table.resolve context name arity isAttribute)
      (table'.resolve context name arity isAttribute) := by
  have hfirst := h.findSome?_resolveCandidate (candidates name arity isAttribute) arity
  unfold NameTable.resolve
  revert hfirst
  generalize (candidates name arity isAttribute).findSome? (table.resolveCandidate · arity) = x
  generalize (candidates name arity isAttribute).findSome? (table'.resolveCandidate · arity) = y
  rintro (hfirst | _)
  · cases hfirst with
    | ok symbol => exact .ok symbol
    | error several several' => exact .error _ _
  · exact .error _ _

end Renumbers

end NameTable

/-! ### Types, attributes and members in a scope -/

namespace Scope

variable {table table' : NameTable}

theorem nullable_follows (h : table.Renumbers r table') (generics : List String)
    (context : String) (inner : Ty) :
    Follows (Ty.renumber r) ((⟨table, generics⟩ : Scope).nullable context inner)
      ((⟨table', generics⟩ : Scope).nullable context (inner.renumber r)) := by
  cases inner with
  | named symbol args =>
    rw [Ty.renumber_named]
    unfold nullable
    dsimp only
    rw [h.isValueType]
    split
    · refine (h.resolve _ _ _ _).bind fun found => ?_
      exact .ok_of_eq (by simp)
    · exact .ok_of_eq (Ty.renumber_named r symbol args)
  | array element rank => exact .ok_of_eq (Ty.renumber_array r element rank)
  | param index name => exact .ok_of_eq (Ty.renumber_param r index name)

mutual

theorem resolve_follows (h : table.Renumbers r table') (generics : List String)
    (context : String) : ∀ expr : TypeExpr,
    Follows (Ty.renumber r) ((⟨table, generics⟩ : Scope).resolve context expr)
      ((⟨table', generics⟩ : Scope).resolve context expr)
  | .named name [] => by
    rw [resolve, resolve]
    dsimp only
    split
    · rename_i index _
      exact .ok_of_eq (Ty.renumber_param r index name)
    · refine (h.resolve _ _ _ _).bind fun symbol => ?_
      exact .ok_of_eq (Ty.renumber_named r symbol [])
  | .named name (arg :: args) => by
    rw [resolve, resolve]
    refine (h.resolve _ _ _ _).bind fun symbol => ?_
    refine (resolve_follows h generics context arg).bind fun first => ?_
    refine (resolveAll_follows h generics context args).bind fun others => ?_
    exact .ok_of_eq (Ty.renumber_named r symbol (first :: others))
  | .array element rank => by
    rw [resolve, resolve]
    refine (resolve_follows h generics context element).bind fun inner => ?_
    exact .ok_of_eq (Ty.renumber_array r inner rank)
  | .tuple elements => by
    rw [resolve, resolve]
    refine (h.resolve _ _ _ _).bind fun symbol => ?_
    refine (resolveAll_follows h generics context elements).bind fun parts => ?_
    exact .ok_of_eq (Ty.renumber_named r symbol parts)
  | .nullable inner => by
    rw [resolve, resolve]
    refine (resolve_follows h generics context inner).bind fun t => ?_
    exact nullable_follows h generics context t

theorem resolveAll_follows (h : table.Renumbers r table') (generics : List String)
    (context : String) : ∀ exprs : List TypeExpr,
    Follows (List.map (Ty.renumber r)) ((⟨table, generics⟩ : Scope).resolveAll context exprs)
      ((⟨table', generics⟩ : Scope).resolveAll context exprs)
  | [] => by
    rw [resolveAll, resolveAll]
    exact .ok []
  | expr :: rest => by
    rw [resolveAll, resolveAll]
    refine (resolve_follows h generics context expr).bind fun first => ?_
    exact (resolveAll_follows h generics context rest).bind fun others => .ok (first :: others)

end

section

variable (h : table.Renumbers r table') (generics : List String) (context : String)

include h

theorem typeOf_follows (text : String) :
    Follows (Ty.renumber r) ((⟨table, generics⟩ : Scope).typeOf context text)
      ((⟨table', generics⟩ : Scope).typeOf context text) := by
  unfold typeOf
  split
  · exact resolve_follows h generics context _
  · exact .error _ _

theorem argumentOf_follows (decl : ArgumentDecl) :
    Follows (Argument.renumber r) ((⟨table, generics⟩ : Scope).argumentOf context decl)
      ((⟨table', generics⟩ : Scope).argumentOf context decl) := by
  unfold argumentOf
  split
  · exact (typeOf_follows h generics context _).bind fun t => .ok_of_eq rfl
  · exact .ok_of_eq rfl
  · exact .ok_of_eq rfl
  · exact .ok_of_eq rfl
  · split
    · exact .ok_of_eq rfl
    · exact .error _ _
  · exact .error _ _

theorem attributeOf_follows (decl : AttributeDecl) :
    Follows (Attribute.renumber r) ((⟨table, generics⟩ : Scope).attributeOf context decl)
      ((⟨table', generics⟩ : Scope).attributeOf context decl) := by
  unfold attributeOf
  refine (h.resolve _ _ _ _).bind fun symbol => ?_
  refine (Follows.mapM (argumentOf_follows h generics context) decl.args).bind fun args => ?_
  exact .ok_of_eq rfl

theorem memberType_follows (decl : MemberDecl) :
    Follows (Option.map (Ty.renumber r)) ((⟨table, generics⟩ : Scope).memberType context decl)
      ((⟨table', generics⟩ : Scope).memberType context decl) := by
  unfold memberType
  split
  · exact (typeOf_follows h generics context _).some
  · exact .ok none
  · exact .error _ _

theorem memberOf_follows (owner : String) (decl : MemberDecl) :
    Follows (Member.renumber r) ((⟨table, generics⟩ : Scope).memberOf owner decl)
      ((⟨table', generics⟩ : Scope).memberOf owner decl) := by
  unfold memberOf
  refine (memberType_follows h generics _ decl).bind fun type => ?_
  refine (Follows.mapM (typeOf_follows h generics _) decl.params).bind fun params => ?_
  refine (Follows.mapM (attributeOf_follows h generics _) decl.attributes).bind fun attributes => ?_
  exact .ok_of_eq rfl

end

end Scope

theorem NameTable.Renumbers.typeDef {table table' : NameTable} (h : table.Renumbers r table')
    (decl : TypeDecl) :
    Follows (TypeDef.renumber r) (table.typeDef decl) (table'.typeDef decl) := by
  unfold NameTable.typeDef
  refine (Follows.mapM (Scope.attributeOf_follows h _ _) decl.attributes).bind fun attributes => ?_
  refine (Follows.optionMapM (Scope.typeOf_follows h _ _) decl.base).bind fun base => ?_
  refine (Follows.mapM (Scope.memberOf_follows h _ _) decl.members).bind fun members => ?_
  dsimp only
  split
  · exact (Scope.typeOf_follows h _ _ _).some.bind fun underlying => .ok_of_eq rfl
  · exact .ok_of_eq rfl

/-! ### Positions in another order -/

/-- A symbol is its position. -/
def symbolEquiv : Symbol ≃ ℕ := ⟨Symbol.index, Symbol.mk, fun _ => rfl, fun _ => rfl⟩

/-- Declarations after those of the prelude are under new numbers in another order. -/
theorem exists_renumbering {decls decls' : List TypeDecl} (hsame : decls.Perm decls') :
    ∃ r : Renumbering,
      (∀ symbol : Symbol, symbol.index < Prelude.decls.length → r symbol = symbol) ∧
      ∀ symbol : Symbol, (Prelude.decls ++ decls')[(r symbol).index]? =
        (Prelude.decls ++ decls)[symbol.index]? := by
  obtain ⟨e, he⟩ := exists_positions_of_perm hsame
  obtain ⟨e', hprelude, he'⟩ := exists_positions_append Prelude.decls he
  refine ⟨(symbolEquiv.trans e').trans symbolEquiv.symm, fun symbol hsymbol => ?_, fun symbol => ?_⟩
  · exact congrArg Symbol.mk (hprelude symbol.index hsymbol)
  · exact he' symbol.index

/-! ### Loading -/

namespace NameTable

theorem mem_ofDecls_iff {decls : List TypeDecl} {e : NameEntry} :
    e ∈ ofDecls decls ↔
      ∃ decl, decls[e.symbol.index]? = some decl ∧ entryOf decl e.symbol.index = e := by
  rw [ofDecls, List.mem_map]
  constructor
  · rintro ⟨⟨decl, index⟩, hmem, rfl⟩
    exact ⟨decl, List.mk_mem_zipIdx_iff_getElem?.mp hmem, rfl⟩
  · rintro ⟨decl, hdecl, hentry⟩
    exact ⟨(decl, e.symbol.index), List.mk_mem_zipIdx_iff_getElem?.mpr hdecl, hentry⟩

theorem nodup_ofDecls (decls : List TypeDecl) : (ofDecls decls).Nodup := by
  refine List.Nodup.of_map (·.symbol.index) ?_
  have hindices : (ofDecls decls).map (·.symbol.index) = List.range' 0 decls.length := by
    rw [ofDecls, List.map_map]
    exact List.zipIdx_map_snd 0 decls
  rw [hindices]
  exact List.nodup_range'

theorem map_key_ofDecls (decls : List TypeDecl) : ((ofDecls decls).map fun e => (e.name, e.arity)) =
    decls.map fun decl => (decl.name, decl.generics.length) := by
  have hentries := congrArg (List.map fun decl : TypeDecl => (decl.name, decl.generics.length))
    (List.zipIdx_map_fst 0 decls)
  rw [List.map_map] at hentries
  rw [ofDecls, List.map_map]
  exact hentries

/-- The names of declarations at other positions are those under new numbers. -/
theorem renumbers_ofDecls {decls decls' : List TypeDecl}
    (hdistinct : (decls.map fun decl => (decl.name, decl.generics.length)).Nodup)
    (hsame : ∀ symbol : Symbol, decls'[(r symbol).index]? = decls[symbol.index]?) :
    (ofDecls decls).Renumbers r (ofDecls decls') where
  distinct := by rwa [map_key_ofDecls]
  perm := by
    have hinjective : Function.Injective (NameEntry.renumber r) := by
      rintro ⟨symbol, _⟩ ⟨symbol', _⟩ heq
      simp only [NameEntry.renumber, NameEntry.mk.injEq, r.apply_eq_iff_eq] at heq
      simp [heq]
    refine (List.perm_ext_iff_of_nodup (nodup_ofDecls decls')
      ((nodup_ofDecls decls).map hinjective)).mpr fun e' => ?_
    obtain ⟨symbol, hsymbol⟩ := r.surjective e'.symbol
    rw [mem_ofDecls_iff, List.mem_map, ← hsymbol, hsame]
    simp only [mem_ofDecls_iff]
    constructor
    · rintro ⟨decl, hdecl, rfl⟩
      exact ⟨entryOf decl symbol.index, ⟨decl, hdecl, rfl⟩, rfl⟩
    · rintro ⟨e, ⟨decl, hdecl, hentry⟩, rfl⟩
      obtain rfl : e.symbol = symbol := r.injective hsymbol.symm
      exact ⟨decl, hdecl, by rw [← hentry]; rfl⟩
  isValueType symbol := by
    have hentry : ∀ (decls : List TypeDecl) (symbol : Symbol), (ofDecls decls).isValueType symbol =
        (decls[symbol.index]?).elim false fun decl => decl.kind.isValueType := by
      intro decls symbol
      rw [isValueType, ofDecls, List.getElem?_map, List.getElem?_zipIdx]
      cases decls[symbol.index]? <;> rfl
    rw [hentry, hentry, hsame]

end NameTable

namespace Assembly

/-- Documents with the same declarations load to the same assembly under new numbers. -/
theorem exists_load_of_perm {documents documents' : List Document} {asm : Assembly}
    (hsame : (documents.flatMap (·.types)).Perm (documents'.flatMap (·.types)))
    (hload : load documents = .ok asm) :
    ∃ r asm', load documents' = .ok asm' ∧ asm.Renumbers r asm' := by
  rw [load, Assembly.ofDecls] at hload
  rw [load, Assembly.ofDecls]
  obtain ⟨r, hprelude, hr⟩ := exists_renumbering hsame
  have hdecls := hsame.append_left Prelude.decls
  generalize documents.flatMap (·.types) = user at hload hr hdecls
  generalize documents'.flatMap (·.types) = user' at hr hdecls
  obtain ⟨hnone, defs, hdefs, rfl⟩ := build_ok hload
  have hdistinct := (NameTable.firstRepeated?_eq_none hnone).1
  have htable := NameTable.renumbers_ofDecls hdistinct hr
  have hdistinct' := ((hdecls.map fun decl => (decl.name, decl.generics.length)).nodup_iff).mp
    hdistinct
  obtain ⟨defs', hdefs'⟩ : ∃ defs', (Prelude.decls ++ user').mapM
      (NameTable.ofDecls (Prelude.decls ++ user')).typeDef = .ok defs' := by
    refine exists_mapM_eq_ok fun decl hdecl => ?_
    obtain ⟨d, -, hd⟩ := exists_of_mapM hdefs (hdecls.mem_iff.mpr hdecl)
    exact ⟨d.renumber r, (hd ▸ htable.typeDef decl).of_ok⟩
  refine ⟨r, ⟨defs'.toArray, Prelude.decls.length⟩, ?_, ?_⟩
  · rw [build, firstRepeated?_of_nodup hdistinct' (by simp), hdefs']
    rfl
  constructor
  case def? =>
    intro symbol
    rw [Assembly.def?, Assembly.def?, List.getElem?_toArray, List.getElem?_toArray,
      getElem?_of_mapM hdefs, getElem?_of_mapM hdefs', hr]
    cases (Prelude.decls ++ user)[symbol.index]? with
    | none => rfl
    | some decl => exact (htable.typeDef decl).toOption
  case size =>
    rw [List.size_toArray, List.size_toArray, ← (mapM_eq_ok_iff.mp hdefs).length_eq,
      ← (mapM_eq_ok_iff.mp hdefs').length_eq, hdecls.length_eq]
  case preludeSize => rfl
  case prelude => exact hprelude

end Assembly

end FormatterPlan
