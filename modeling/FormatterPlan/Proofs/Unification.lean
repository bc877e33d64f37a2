import FormatterPlan.Proofs.Lists
import FormatterPlan.Proofs.Types
import FormatterPlan.TypeGraph.FormatterShape

/-! Unification against substitution.  A type generalizes its instances: those that have other types
in the places of its parameters.  What generalizes types that unify unifies too, so a check that
lets parameters match anything rejects no open type one of whose instances it accepts.  No law of an
equivalence gives this: a parameter unifies with types that do not unify with each other. -/

namespace FormatterPlan

namespace Ty

variable {t u : Ty} {ts us : List Ty}

/-! ### Types that unify -/

theorem unifiesAll_iff :
    unifiesAll ts us = true ↔ List.Forall₂ (fun t u => t.unifies u = true) ts us := by
  induction ts generalizing us with
  | nil => cases us <;> simp [unifiesAll]
  | cons t ts ih => cases us <;> simp [unifiesAll, ih]

theorem unifiesAll_map {f : Ty → Ty} (h : ∀ t ∈ ts, ∀ u, (f t).unifies (f u) = t.unifies u) :
    unifiesAll (ts.map f) (us.map f) = unifiesAll ts us := by
  induction ts generalizing us with
  | nil => cases us <;> rfl
  | cons t ts ih =>
    cases us with
    | nil => rfl
    | cons u us =>
      rw [List.map_cons, List.map_cons, unifiesAll, unifiesAll, h t List.mem_cons_self,
        ih fun t ht => h t (List.mem_cons_of_mem _ ht)]

@[simp] theorem unifies_named {symbol symbol' : Symbol} :
    (named symbol ts).unifies (.named symbol' us) = true ↔
      symbol = symbol' ∧ List.Forall₂ (fun t u => t.unifies u = true) ts us := by
  rw [unifies, Bool.and_eq_true, beq_iff_eq, unifiesAll_iff]

@[simp] theorem unifies_array {element element' : Ty} {rank rank' : Nat} :
    (array element rank).unifies (.array element' rank') = true ↔
      rank = rank' ∧ element.unifies element' = true := by
  rw [unifies, Bool.and_eq_true, beq_iff_eq]

@[simp] theorem param_unifies {index : Nat} {name : String} :
    (param index name).unifies u = true := rfl

@[simp] theorem unifies_param {index : Nat} {name : String} :
    t.unifies (.param index name) = true := by
  cases t <;> rfl

@[simp] theorem named_unifies_array {symbol : Symbol} {element : Ty} {rank : Nat} :
    (named symbol ts).unifies (.array element rank) = false := rfl

@[simp] theorem array_unifies_named {symbol : Symbol} {element : Ty} {rank : Nat} :
    (array element rank).unifies (.named symbol us) = false := rfl

theorem unifies_self (t : Ty) : t.unifies t = true := by
  induction t using Ty.induction with
  | named symbol args ih => exact unifies_named.mpr ⟨rfl, List.forall₂_same.mpr ih⟩
  | array element rank ih => exact unifies_array.mpr ⟨rfl, ih⟩
  | param index name => exact param_unifies

-- There is no transitivity to go with it, since a parameter unifies with everything.
theorem unifies_symm (h : t.unifies u = true) : u.unifies t = true := by
  induction t using Ty.induction generalizing u with
  | named symbol args ih =>
    cases u with
    | named symbol' args' =>
      obtain ⟨rfl, hargs⟩ := unifies_named.mp h
      have hflipped := ((List.forall₂_and_left args args').mpr ⟨ih, hargs⟩).imp
        fun _ _ hpair => hpair.1 hpair.2
      exact unifies_named.mpr ⟨rfl, hflipped.flip⟩
    | array element rank => simp at h
    | param index name => exact param_unifies
  | array element rank ih =>
    cases u with
    | named symbol args => simp at h
    | array element' rank' =>
      obtain ⟨rfl, helement⟩ := unifies_array.mp h
      exact unifies_array.mpr ⟨rfl, ih helement⟩
    | param index name => exact param_unifies
  | param index name => exact unifies_param

theorem unifies_comm (t u : Ty) : t.unifies u = u.unifies t :=
  Bool.eq_iff_iff.mpr ⟨unifies_symm, unifies_symm⟩

theorem eq_of_unifies (ht : t.isClosed = true) (hu : u.isClosed = true)
    (h : t.unifies u = true) : t = u := by
  induction t using Ty.induction generalizing u with
  | named symbol args ih =>
    cases u with
    | named symbol' args' =>
      obtain ⟨rfl, hargs⟩ := unifies_named.mp h
      rw [isClosed_named, List.all_eq_true] at ht hu
      -- The hypothesis is about types that are closed, so about pairs out of the two lists.
      have hsame : List.Forall₂ (· = ·) args args' := by
        refine List.forall₂_iff_zip.mpr ⟨hargs.length_eq, fun hpair => ?_⟩
        obtain ⟨hleft, hright⟩ := List.of_mem_zip hpair
        exact ih _ hleft (ht _ hleft) (hu _ hright) (List.forall₂_zip hargs hpair)
      rw [List.forall₂_eq_eq_eq] at hsame
      rw [hsame]
    | array element rank => simp at h
    | param index name => simp at hu
  | array element rank ih =>
    cases u with
    | named symbol args => simp at h
    | array element' rank' =>
      obtain ⟨rfl, helement⟩ := unifies_array.mp h
      rw [ih (by simpa using ht) (by simpa using hu) helement]
    | param index name => simp at hu
  | param index name => simp at ht

theorem unifies_iff_eq (ht : t.isClosed = true) (hu : u.isClosed = true) :
    t.unifies u = true ↔ t = u :=
  ⟨eq_of_unifies ht hu, fun heq => heq ▸ unifies_self t⟩

/-! ### Types that generalize others -/

mutual

/-- Whether a type has the form of another one but for its parameters.  The other may have any type
in the place of a parameter, and another one each time the parameter occurs. -/
def Generalizes : Ty → Ty → Prop
  | .param .., _ => True
  | .named symbol ts, .named symbol' us => symbol = symbol' ∧ AllGeneralize ts us
  | .array element rank, .array element' rank' => rank = rank' ∧ Generalizes element element'
  | .named .., .array .. | .named .., .param .. => False
  | .array .., .named .. | .array .., .param .. => False

def AllGeneralize : List Ty → List Ty → Prop
  | [], [] => True
  | t :: ts, u :: us => Generalizes t u ∧ AllGeneralize ts us
  | [], _ :: _ | _ :: _, [] => False

end

theorem allGeneralize_iff : AllGeneralize ts us ↔ List.Forall₂ Generalizes ts us := by
  induction ts generalizing us with
  | nil => cases us <;> simp [AllGeneralize]
  | cons t ts ih => cases us <;> simp [AllGeneralize, ih]

@[simp] theorem generalizes_named {symbol symbol' : Symbol} :
    (named symbol ts).Generalizes (.named symbol' us) ↔
      symbol = symbol' ∧ List.Forall₂ Generalizes ts us := by
  rw [Generalizes, allGeneralize_iff]

@[simp] theorem generalizes_array {element element' : Ty} {rank rank' : Nat} :
    (array element rank).Generalizes (.array element' rank') ↔
      rank = rank' ∧ element.Generalizes element' := by
  rw [Generalizes]

@[simp] theorem param_generalizes {index : Nat} {name : String} :
    (param index name).Generalizes u := by
  rw [Generalizes]
  trivial

/-- A type generalizes what comes of it when types are put in the place of its parameters. -/
theorem generalizes_subst (context : List Ty) (t : Ty) : t.Generalizes (t.subst context) := by
  induction t using Ty.induction with
  | named symbol args ih =>
    rw [subst_named, generalizes_named, List.forall₂_map_right_iff]
    exact ⟨rfl, List.forall₂_same.mpr ih⟩
  | array element rank ih => simpa using ih
  | param index name => exact param_generalizes

theorem Generalizes.unifies_left {t' : Ty} (ht : t.Generalizes t') (h : t'.unifies u = true) :
    t.unifies u = true := by
  induction t using Ty.induction generalizing t' u with
  | named symbol args ih =>
    cases t' with
    | named symbol' args' =>
      obtain ⟨rfl, hargs⟩ := generalizes_named.mp ht
      cases u with
      | named symbol'' args'' =>
        obtain ⟨rfl, hargs'⟩ := unifies_named.mp h
        exact unifies_named.mpr ⟨rfl, forall₂_comp hargs hargs' fun t hmem _ _ => ih t hmem⟩
      | array element rank => simp at h
      | param index name => exact unifies_param
    | array element rank => exact ht.elim
    | param index name => exact ht.elim
  | array element rank ih =>
    cases t' with
    | named symbol args => exact ht.elim
    | array element' rank' =>
      obtain ⟨rfl, helement⟩ := generalizes_array.mp ht
      cases u with
      | named symbol args => simp at h
      | array element'' rank'' =>
        obtain ⟨rfl, helement'⟩ := unifies_array.mp h
        exact unifies_array.mpr ⟨rfl, ih helement helement'⟩
      | param index name => exact unifies_param
    | param index name => exact ht.elim
  | param index name => exact param_unifies

/-- What generalizes types that unify unifies. -/
theorem Generalizes.unifies {t' u' : Ty} (ht : t.Generalizes t') (hu : u.Generalizes u')
    (h : t'.unifies u' = true) : t.unifies u = true :=
  unifies_symm (hu.unifies_left (unifies_symm (ht.unifies_left h)))

/-! ### Contexts -/

/-- Whether a context is made from another one by putting more general types in the place of
entries, types that become the entries when their parameters are substituted, and by leaving out
the last entries. -/
structure Loosens (general context : List Ty) : Prop where
  length_le : general.length ≤ context.length
  entries : ∀ (i : Nat) (t u : Ty), general[i]? = some t → context[i]? = some u →
    ∃ inner, t.subst inner = u

variable {general context : List Ty}

/-- Substitution with a looser context gives a more general type. -/
theorem Loosens.subst (h : Loosens general context) (t : Ty) :
    (t.subst general).Generalizes (t.subst context) := by
  induction t using Ty.induction with
  | named symbol args ih =>
    rw [subst_named, subst_named, generalizes_named, List.forall₂_map_left_iff,
      List.forall₂_map_right_iff]
    exact ⟨rfl, List.forall₂_same.mpr ih⟩
  | array element rank ih => simpa using ih
  | param index name =>
    rw [subst_param, subst_param]
    cases hgeneral : general[index]? with
    | none => exact param_generalizes
    | some t =>
      -- The entry is there in the longer context, too.
      have hlt := Nat.lt_of_lt_of_le (List.getElem?_eq_some_iff.mp hgeneral).1 h.length_le
      have hcontext := List.getElem?_eq_getElem hlt
      obtain ⟨inner, hinner⟩ := h.entries index _ _ hgeneral hcontext
      rw [hcontext, Option.getD_some, Option.getD_some, ← hinner]
      exact generalizes_subst inner t

theorem loosens_map_subst (context ts : List Ty) : Loosens ts (ts.map (Ty.subst context)) where
  length_le := by simp
  entries i t u ht hu := by
    rw [List.getElem?_map, ht] at hu
    exact ⟨context, Option.some.inj hu⟩

theorem args_subst {symbol : Symbol} (h : t.symbol? = some symbol) (context : List Ty) :
    (t.subst context).args = t.args.map (Ty.subst context) := by
  cases t with
  | named symbol' args => rw [subst_named, Ty.args, Ty.args]
  | array element rank => cases h
  | param index name => cases h

theorem symbol?_subst {symbol : Symbol} (h : t.symbol? = some symbol) (context : List Ty) :
    (t.subst context).symbol? = some symbol := by
  cases t with
  | named symbol' args => rw [subst_named, ← h, symbol?, symbol?]
  | array element rank => cases h
  | param index name => cases h

end Ty

/-! ### Formatters -/

/-- Whether a written type is the target of a formatter once it stands in the formatter's
instantiation, open parameters on either side aside. -/
def ClosesOver (formatter target written : Ty) : Prop :=
  (written.subst formatter.args).unifies target = true

theorem ClosesOver.of_subst {formatter target written : Ty} {symbol : Symbol}
    {context context' : List Ty} (hsymbol : formatter.symbol? = some symbol)
    (h : ClosesOver (formatter.subst context) (target.subst context') written) :
    ClosesOver formatter target written := by
  rw [ClosesOver, Ty.args_subst hsymbol] at h
  exact ((Ty.loosens_map_subst context formatter.args).subst written).unifies
    (Ty.generalizes_subst context' target) h

namespace Assembly

theorem isFormatterOf_iff {asm : Assembly} {formatter target : Ty} {symbol : Symbol}
    (hsymbol : formatter.symbol? = some symbol) :
    asm.isFormatterOf formatter target = true ↔
      ((asm.def? symbol).map (·.kind) = some .concreteClass ∨
        (asm.def? symbol).map (·.kind) = some .struct) ∧
      (∃ m ∈ asm.instanceMethods symbol "Serialize",
        ∃ type ∈ m.params, ClosesOver formatter target type) ∧
      ∃ m ∈ asm.instanceMethods symbol "Deserialize",
        ∃ type, m.type = some type ∧ ClosesOver formatter target type := by
  simp [isFormatterOf, hsymbol, ClosesOver, Option.any_eq_true, and_assoc]

/-- What a formatter is accepted for in one of its instantiations, it is accepted for with its own
parameters. -/
theorem isFormatterOf_of_subst {asm : Assembly} {formatter target : Ty} {symbol : Symbol}
    {context context' : List Ty} (hsymbol : formatter.symbol? = some symbol)
    (h : asm.isFormatterOf (formatter.subst context) (target.subst context') = true) :
    asm.isFormatterOf formatter target = true := by
  rw [isFormatterOf_iff (Ty.symbol?_subst hsymbol context)] at h
  rw [isFormatterOf_iff hsymbol]
  obtain ⟨hkind, ⟨m, hm, type, htype, hwrites⟩, m', hm', type', htype', hreads⟩ := h
  exact ⟨hkind, ⟨m, hm, type, htype, hwrites.of_subst hsymbol⟩, m', hm', type', htype',
    hreads.of_subst hsymbol⟩

end Assembly

/-- Types with a common instance unify, and so do they in looser contexts.  Unification is reflexive
and symmetric, and equality on closed types.  So a formatter that is a declared type is accepted,
by each of its signatures and as a whole, wherever it is in some instantiation. -/
theorem unifies_of_common_instance :
    (∀ (t u : Ty) (context context' general general' : List Ty),
      t.subst context = u.subst context' → Ty.Loosens general context →
        Ty.Loosens general' context' → (t.subst general).unifies (u.subst general') = true) ∧
    (∀ t : Ty, t.unifies t = true) ∧
    (∀ t u : Ty, t.unifies u = u.unifies t) ∧
    (∀ t u : Ty, t.isClosed = true → u.isClosed = true → (t.unifies u = true ↔ t = u)) ∧
    ∀ (asm : Assembly) (formatter target : Ty) (symbol : Symbol) (context context' : List Ty),
      formatter.symbol? = some symbol →
        (∀ written, ClosesOver (formatter.subst context) (target.subst context') written →
          ClosesOver formatter target written) ∧
        (asm.isFormatterOf (formatter.subst context) (target.subst context') = true →
          asm.isFormatterOf formatter target = true) := by
  refine ⟨fun t u context context' general general' hcommon ht hu => ?_, Ty.unifies_self,
    Ty.unifies_comm, fun t u ht hu => Ty.unifies_iff_eq ht hu,
    fun asm formatter target symbol context context' hsymbol =>
      ⟨fun written h => h.of_subst hsymbol, Assembly.isFormatterOf_of_subst hsymbol⟩⟩
  refine (ht.subst t).unifies (hu.subst u) ?_
  rw [hcommon]
  exact Ty.unifies_self _

def coin : Ty := .named ⟨0⟩ []

def boxOf (content : Ty) : Ty := .named ⟨1⟩ [content]

def boxFormatterOf (content : Ty) : Ty := .named ⟨2⟩ [content]

/-- Coins, boxes of anything and a formatter for boxes. -/
def boxAssembly : Assembly where
  preludeSize := 0
  defs := #[
    { name := "Coin", kind := .concreteClass, generics := [], base := none, underlying := none,
      attributes := [], members := [] },
    { name := "Box", kind := .concreteClass, generics := ["T"], base := none, underlying := none,
      attributes := [], members := [] },
    { name := "BoxFormatter", kind := .concreteClass, generics := ["T"], base := none,
      underlying := none, attributes := [],
      members := [
        { name := "Serialize", kind := .method, type := none, params := [boxOf (.param 0 "T")],
          access := .everyone, isStatic := false, attributes := [] },
        { name := "Deserialize", kind := .method, type := some (boxOf (.param 0 "T")), params := [],
          access := .everyone, isStatic := false, attributes := [] }] }]

/-- A box of coins comes of a box of anything and of a bare parameter, whose contexts are then
loosened to none and to a box of anything; and the formatter of boxes of coins has its own
parameter back. -/
theorem box_unifies_box :
    Ty.subst [coin] (boxOf (.param 0 "T")) = Ty.subst [boxOf coin] (.param 0 "U") ∧
      Ty.Loosens [] [coin] ∧ Ty.Loosens [boxOf (.param 0 "V")] [boxOf coin] ∧
      (Ty.subst [] (boxOf (.param 0 "T"))).unifies
        (Ty.subst [boxOf (.param 0 "V")] (.param 0 "U")) = true ∧
      (coin.unifies coin = true ↔ coin = coin) ∧
      boxAssembly.isFormatterOf (boxFormatterOf coin) (boxOf coin) = true ∧
      boxAssembly.isFormatterOf (boxFormatterOf (.param 0 "T")) (boxOf (.param 0 "T")) = true := by
  obtain ⟨hcommon, -, -, hclosed, hformatter⟩ := unifies_of_common_instance
  have hsubst : Ty.subst [coin] (boxOf (.param 0 "T")) = Ty.subst [boxOf coin] (.param 0 "U") := by
    decide
  have hnone : Ty.Loosens [] [coin] := ⟨Nat.zero_le _, fun _ _ _ h => by simp at h⟩
  have hbox : Ty.Loosens [boxOf (.param 0 "V")] [boxOf coin] :=
    Ty.loosens_map_subst [coin] [boxOf (.param 0 "V")]
  have haccepted : boxAssembly.isFormatterOf (boxFormatterOf coin) (boxOf coin) = true := by decide
  exact ⟨hsubst, hnone, hbox, hcommon _ _ _ _ _ _ hsubst hnone hbox,
    hclosed coin coin (by decide) (by decide), haccepted,
    (hformatter boxAssembly (boxFormatterOf (.param 0 "T")) (boxOf (.param 0 "T")) ⟨2⟩ [coin] [coin]
      (by decide)).2 haccepted⟩

end FormatterPlan
