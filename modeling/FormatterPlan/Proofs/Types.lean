import FormatterPlan.Assembly.Basic

/-! Types against an assembly.  A type fits when its declarations exist and have as many parameters
as they are given arguments; substitution keeps that, and closes a type when its context is closed
and long enough.  In an assembly whose declarations differ in name or arity, the name of a type that
fits determines the type up to the positions of its parameters, so it determines a closed type. -/

namespace FormatterPlan

namespace Ty

/-- Induction over types, with the hypothesis for every argument of a declared type. -/
@[elab_as_elim]
theorem induction {P : Ty → Prop}
    (named : ∀ symbol args, (∀ t ∈ args, P t) → P (.named symbol args))
    (array : ∀ element rank, P element → P (.array element rank))
    (param : ∀ index name, P (.param index name)) (t : Ty) : P t := by
  refine @Ty.rec P (fun ts => ∀ t ∈ ts, P t) named array param ?_ ?_ t
  · intro u hu
    simp at hu
  · intro t ts ht hts u hu
    rcases List.mem_cons.mp hu with rfl | hu
    · exact ht
    · exact hts u hu

@[simp] theorem subst_named (context : List Ty) (symbol : Symbol) (args : List Ty) :
    (named symbol args).subst context = .named symbol (args.map (subst context)) := by
  rw [subst, substAll_eq_map]

@[simp] theorem subst_array (context : List Ty) (element : Ty) (rank : Nat) :
    (array element rank).subst context = .array (element.subst context) rank := rfl

@[simp] theorem subst_param (context : List Ty) (index : Nat) (name : String) :
    (param index name).subst context = (context[index]?).getD (.param index name) := rfl

@[simp] theorem isClosed_named (symbol : Symbol) (args : List Ty) :
    (named symbol args).isClosed = args.all isClosed := by
  rw [isClosed, allClosed_eq_all]

@[simp] theorem isClosed_array (element : Ty) (rank : Nat) :
    (array element rank).isClosed = element.isClosed := rfl

@[simp] theorem isClosed_param (index : Nat) (name : String) :
    (param index name).isClosed = false := rfl

/-! ### Types that fit -/

mutual

/-- Every declaration that a type names is one of the assembly and has as many parameters as it is
given arguments, and every parameter of the type is in scope. -/
def Fits (asm : Assembly) (scope : Nat → String → Prop) : Ty → Prop
  | .named symbol args =>
    (∃ d, asm.def? symbol = some d ∧ args.length = d.generics.length) ∧ AllFit asm scope args
  | .array element _ => Fits asm scope element
  | .param index name => scope index name

def AllFit (asm : Assembly) (scope : Nat → String → Prop) : List Ty → Prop
  | [] => True
  | t :: ts => Fits asm scope t ∧ AllFit asm scope ts

end

/-- The parameters of a declaration, each at its position. -/
def InScope (generics : List String) (index : Nat) (name : String) : Prop :=
  generics[index]? = some name

/-- The scope that allows every parameter. -/
def AnyParam (_index : Nat) (_name : String) : Prop := True

/-- The scope that allows no parameter. -/
def NoParam (_index : Nat) (_name : String) : Prop := False

section

variable {asm : Assembly} {scope scope' : Nat → String → Prop}

theorem allFit_iff {ts : List Ty} : AllFit asm scope ts ↔ ∀ t ∈ ts, t.Fits asm scope := by
  induction ts with
  | nil => simp [AllFit]
  | cons t ts ih => simp [AllFit, ih]

@[simp] theorem fits_named {symbol : Symbol} {args : List Ty} :
    (named symbol args).Fits asm scope ↔
      (∃ d, asm.def? symbol = some d ∧ args.length = d.generics.length) ∧
        ∀ t ∈ args, t.Fits asm scope := by
  rw [Fits, allFit_iff]

@[simp] theorem fits_array {element : Ty} {rank : Nat} :
    (array element rank).Fits asm scope ↔ element.Fits asm scope := .rfl

@[simp] theorem fits_param {index : Nat} {name : String} :
    (param index name).Fits asm scope ↔ scope index name := .rfl

theorem Fits.mono {t : Ty} (h : t.Fits asm scope)
    (hscope : ∀ index name, scope index name → scope' index name) : t.Fits asm scope' := by
  induction t using Ty.induction with
  | named symbol args ih =>
    rw [fits_named] at h ⊢
    exact ⟨h.1, fun t ht => ih t ht (h.2 t ht)⟩
  | array element rank ih => exact ih h
  | param index name => exact hscope index name h

theorem Fits.anyParam {t : Ty} (h : t.Fits asm scope) : t.Fits asm AnyParam :=
  h.mono fun _ _ _ => trivial

theorem Fits.noParam {t : Ty} (h : t.Fits asm scope) (hclosed : t.isClosed = true) :
    t.Fits asm NoParam := by
  induction t using Ty.induction with
  | named symbol args ih =>
    rw [fits_named] at h ⊢
    rw [isClosed_named, List.all_eq_true] at hclosed
    exact ⟨h.1, fun t ht => ih t ht (h.2 t ht) (hclosed t ht)⟩
  | array element rank ih => exact ih h (by simpa using hclosed)
  | param index name => simp at hclosed

theorem Fits.isClosed {t : Ty} (h : t.Fits asm NoParam) : t.isClosed = true := by
  induction t using Ty.induction with
  | named symbol args ih =>
    rw [fits_named] at h
    rw [isClosed_named, List.all_eq_true]
    exact fun t ht => ih t ht (h.2 t ht)
  | array element rank ih => simpa using ih h
  | param index name => exact h.elim

theorem subst_of_isClosed {context : List Ty} {t : Ty} (h : t.isClosed = true) :
    t.subst context = t := by
  induction t using Ty.induction with
  | named symbol args ih =>
    rw [isClosed_named, List.all_eq_true] at h
    rw [subst_named, List.map_congr_left fun t ht => ih t ht (h t ht), List.map_id']
  | array element rank ih =>
    rw [isClosed_array] at h
    rw [subst_array, ih h]
  | param index name => simp at h

/-- Substitution keeps a type fitting when it puts a type that fits in the place of every
parameter. -/
theorem Fits.subst {context : List Ty} {t : Ty} (h : t.Fits asm scope)
    (hcontext : ∀ index name, scope index name →
      ((context[index]?).getD (.param index name)).Fits asm scope') :
    (t.subst context).Fits asm scope' := by
  induction t using Ty.induction with
  | named symbol args ih =>
    rw [fits_named] at h
    simp only [subst_named, fits_named, List.length_map, List.forall_mem_map]
    exact ⟨h.1, fun t ht => ih t ht (h.2 t ht)⟩
  | array element rank ih => simpa using ih h
  | param index name => simpa using hcontext index name h

/-- A type over the parameters of a declaration fits with arguments for all of them. -/
theorem Fits.subst_args {generics : List String} {context : List Ty} {t : Ty}
    (h : t.Fits asm (InScope generics)) (hlength : context.length = generics.length)
    (hcontext : ∀ u ∈ context, u.Fits asm scope) : (t.subst context).Fits asm scope := by
  refine h.subst fun index name hin => ?_
  have hindex : index < context.length := by
    rw [hlength]
    exact (List.getElem?_eq_some_iff.mp hin).1
  rw [List.getElem?_eq_getElem hindex]
  exact hcontext _ (List.getElem_mem hindex)

theorem Fits.declared {t : Ty} {symbol : Symbol} (h : t.Fits asm scope)
    (hsymbol : t.symbol? = some symbol) : ∃ d, asm.def? symbol = some d := by
  cases t with
  | named s args =>
    obtain rfl : s = symbol := by simpa [symbol?] using hsymbol
    rw [fits_named] at h
    obtain ⟨⟨d, hd, -⟩, -⟩ := h
    exact ⟨d, hd⟩
  | array element rank => simp [symbol?] at hsymbol
  | param index name => simp [symbol?] at hsymbol

/-- The arguments of a declared type that fits are as many as the declaration has parameters, and
each of them fits. -/
theorem Fits.args {t : Ty} {symbol : Symbol} {d : TypeDef} (h : t.Fits asm scope)
    (hsymbol : t.symbol? = some symbol) (hd : asm.def? symbol = some d) :
    t.args.length = d.generics.length ∧ ∀ u ∈ t.args, u.Fits asm scope := by
  cases t with
  | named s args =>
    obtain rfl : s = symbol := by simpa [symbol?] using hsymbol
    rw [fits_named] at h
    obtain ⟨⟨e, he, hlength⟩, hall⟩ := h
    obtain rfl : d = e := by rw [hd] at he; simpa using he
    exact ⟨hlength, hall⟩
  | array element rank => simp [symbol?] at hsymbol
  | param index name => simp [symbol?] at hsymbol

end

/-! ### Types up to the positions of their parameters -/

mutual

/-- A type without the positions of its parameters. -/
def unplaced : Ty → Ty
  | .named symbol args => .named symbol (allUnplaced args)
  | .array element rank => .array (unplaced element) rank
  | .param _ name => .param 0 name

def allUnplaced : List Ty → List Ty
  | [] => []
  | t :: ts => unplaced t :: allUnplaced ts

end

theorem allUnplaced_eq_map (ts : List Ty) : allUnplaced ts = ts.map unplaced := by
  induction ts with
  | nil => rfl
  | cons t ts ih => rw [allUnplaced, ih, List.map_cons]

@[simp] theorem unplaced_named (symbol : Symbol) (args : List Ty) :
    (named symbol args).unplaced = .named symbol (args.map unplaced) := by
  rw [unplaced, allUnplaced_eq_map]

@[simp] theorem unplaced_array (element : Ty) (rank : Nat) :
    (array element rank).unplaced = .array element.unplaced rank := rfl

@[simp] theorem unplaced_param (index : Nat) (name : String) :
    (param index name).unplaced = .param 0 name := rfl

@[simp] theorem isClosed_unplaced (t : Ty) : t.unplaced.isClosed = t.isClosed := by
  induction t using Ty.induction with
  | named symbol args ih =>
    rw [unplaced_named, isClosed_named, isClosed_named, List.all_map, Bool.eq_iff_iff]
    simp only [List.all_eq_true, Function.comp_apply]
    exact forall₂_congr fun t ht => by rw [ih t ht]
  | array element rank ih => simpa using ih
  | param index name => simp

@[simp] theorem symbol?_unplaced (t : Ty) : t.unplaced.symbol? = t.symbol? := by
  cases t <;> simp [symbol?]

@[simp] theorem args_unplaced (t : Ty) : t.unplaced.args = t.args.map unplaced := by
  cases t <;> simp [args]

theorem unplaced_of_isClosed {t : Ty} (h : t.isClosed = true) : t.unplaced = t := by
  induction t using Ty.induction with
  | named symbol args ih =>
    rw [isClosed_named, List.all_eq_true] at h
    rw [unplaced_named, List.map_congr_left fun t ht => ih t ht (h t ht), List.map_id']
  | array element rank ih => simpa using ih (by simpa using h)
  | param index name => simp at h

/-- Substitution does not see the positions of parameters in the types that it puts in. -/
theorem unplaced_subst {context context' : List Ty}
    (h : context.map unplaced = context'.map unplaced) (t : Ty) :
    (t.subst context).unplaced = (t.subst context').unplaced := by
  induction t using Ty.induction with
  | named symbol args ih =>
    simp only [subst_named, unplaced_named, List.map_map]
    exact congrArg _ (List.map_congr_left ih)
  | array element rank ih => simpa using ih
  | param index name =>
    have hget := congrArg (·[index]?) h
    simp only [List.getElem?_map] at hget
    simp only [subst_param]
    cases hi : context[index]? <;> cases hi' : context'[index]? <;>
      simp_all

end Ty

/-! ### Names of types -/

namespace Assembly

variable {asm : Assembly}

/-- Two declarations of an assembly differ in name or arity. -/
def Distinct (asm : Assembly) : Prop :=
  ∀ a b d e, asm.def? a = some d → asm.def? b = some e → d.name = e.name →
    d.generics.length = e.generics.length → a = b

@[simp] theorem typeName_named (symbol : Symbol) (args : List Ty) :
    asm.typeName (.named symbol args) = .named (asm.nameOf symbol) (args.map asm.typeName) := by
  rw [typeName, typeNames_eq_map]

@[simp] theorem typeName_array (element : Ty) (rank : Nat) :
    asm.typeName (.array element rank) = .array (asm.typeName element) rank := by rw [typeName]

@[simp] theorem typeName_param (index : Nat) (name : String) :
    asm.typeName (.param index name) = .param name := by rw [typeName]

theorem nameOf_eq {symbol : Symbol} {d : TypeDef} (h : asm.def? symbol = some d) :
    asm.nameOf symbol = d.name := by
  simp [nameOf, h]

@[simp] theorem typeName_unplaced (t : Ty) : asm.typeName t.unplaced = asm.typeName t := by
  induction t using Ty.induction with
  | named symbol args ih =>
    simp only [Ty.unplaced_named, typeName_named, List.map_map]
    exact congrArg _ (List.map_congr_left ih)
  | array element rank ih => simpa using ih
  | param index name => simp

/-- The name of a type that fits determines the type up to the positions of its parameters. -/
theorem Distinct.unplaced_eq (hdistinct : asm.Distinct) {t u : Ty} (ht : t.Fits asm Ty.AnyParam)
    (hu : u.Fits asm Ty.AnyParam) (h : asm.typeName t = asm.typeName u) :
    t.unplaced = u.unplaced := by
  induction t using Ty.induction generalizing u with
  | named a xs ih =>
    cases u with
    | named b ys =>
      rw [Ty.fits_named] at ht hu
      obtain ⟨⟨d, hd, hxs⟩, hallx⟩ := ht
      obtain ⟨⟨e, he, hys⟩, hally⟩ := hu
      rw [typeName_named, typeName_named, TypeName.named.injEq, nameOf_eq hd, nameOf_eq he] at h
      -- Arguments of equal names are equally many, so the declarations have the same arity.
      have hlength : xs.length = ys.length := by simpa using congrArg List.length h.2
      obtain rfl : a = b := hdistinct a b d e hd he h.1 (by omega)
      rw [Ty.unplaced_named, Ty.unplaced_named, Ty.named.injEq]
      refine ⟨rfl, List.ext_getElem (by simpa using hlength) fun i hi hi' => ?_⟩
      rw [List.length_map] at hi hi'
      rw [List.getElem_map, List.getElem_map]
      refine ih _ (List.getElem_mem hi) (hallx _ (List.getElem_mem hi))
        (hally _ (List.getElem_mem hi')) ?_
      have hget := congrArg (·[i]?) h.2
      simpa [List.getElem?_eq_getElem hi, List.getElem?_eq_getElem hi'] using hget
    | array element rank => simp at h
    | param index name => simp at h
  | array element rank ih =>
    cases u with
    | named b ys => simp at h
    | array element' rank' =>
      rw [typeName_array, typeName_array, TypeName.array.injEq] at h
      rw [Ty.fits_array] at ht hu
      rw [Ty.unplaced_array, Ty.unplaced_array, ih ht hu h.1, h.2]
    | param index name => simp at h
  | param index name =>
    cases u with
    | named b ys => simp at h
    | array element rank => simp at h
    | param index' name' => simpa using h

/-- A closed type and a type of the same name that fits are the same type. -/
theorem Distinct.eq_of_typeName_eq (hdistinct : asm.Distinct) {t u : Ty}
    (ht : t.Fits asm Ty.AnyParam) (hu : u.Fits asm Ty.AnyParam) (hclosed : t.isClosed = true)
    (h : asm.typeName t = asm.typeName u) : t = u := by
  have hunplaced := hdistinct.unplaced_eq ht hu h
  have hclosed' : u.isClosed = true := by
    rw [← Ty.isClosed_unplaced, ← hunplaced, Ty.isClosed_unplaced, hclosed]
  rw [← Ty.unplaced_of_isClosed hclosed, hunplaced, Ty.unplaced_of_isClosed hclosed']

end Assembly

end FormatterPlan
