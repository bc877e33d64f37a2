import FormatterPlan.Proofs.Unification
import FormatterPlan.TypeGraph.Expansion
import Mathlib.Logic.Equiv.Basic

/-! Other numbers for declarations.  A symbol is the position of a declaration, so the declarations
of an assembly in another order are the same up to a bijection of symbols.  It carries over to types
and to whatever holds types; names, which refer to no numbers, stay. -/

namespace FormatterPlan

/-- A change of numbers: the new symbol of each old one. -/
abbrev Renumbering := Symbol ≃ Symbol

variable (r : Renumbering)

/-! ### Types -/

namespace Ty

mutual

def renumber : Ty → Ty
  | .named symbol args => .named (r symbol) (renumberAll args)
  | .array element rank => .array (renumber element) rank
  | .param index name => .param index name

def renumberAll : List Ty → List Ty
  | [] => []
  | t :: ts => renumber t :: renumberAll ts

end

theorem renumberAll_eq_map (ts : List Ty) : renumberAll r ts = ts.map (renumber r) := by
  induction ts with
  | nil => rfl
  | cons t ts ih => rw [renumberAll, ih, List.map_cons]

@[simp] theorem renumber_named (symbol : Symbol) (args : List Ty) :
    (named symbol args).renumber r = .named (r symbol) (args.map (renumber r)) := by
  rw [renumber, renumberAll_eq_map]

@[simp] theorem renumber_array (element : Ty) (rank : Nat) :
    (array element rank).renumber r = .array (element.renumber r) rank := rfl

@[simp] theorem renumber_param (index : Nat) (name : String) :
    (param index name).renumber r = .param index name := rfl

@[simp] theorem symbol?_renumber (t : Ty) : (t.renumber r).symbol? = t.symbol?.map r := by
  cases t <;> simp [symbol?]

@[simp] theorem args_renumber (t : Ty) : (t.renumber r).args = t.args.map (renumber r) := by
  cases t <;> simp [args]

@[simp] theorem isClosed_renumber (t : Ty) : (t.renumber r).isClosed = t.isClosed := by
  induction t using Ty.induction with
  | named symbol args ih =>
    rw [renumber_named, isClosed_named, isClosed_named, List.all_map, Bool.eq_iff_iff]
    simp only [List.all_eq_true, Function.comp_apply]
    exact forall₂_congr fun t ht => by rw [ih t ht]
  | array element rank ih => simpa using ih
  | param index name => simp

theorem renumber_subst (context : List Ty) (t : Ty) :
    (t.subst context).renumber r = (t.renumber r).subst (context.map (renumber r)) := by
  induction t using Ty.induction with
  | named symbol args ih =>
    simp only [subst_named, renumber_named, List.map_map]
    exact congrArg _ (List.map_congr_left ih)
  | array element rank ih => simpa using ih
  | param index name =>
    simp only [subst_param, renumber_param, List.getElem?_map]
    cases context[index]? <;> simp

theorem renumber_symm_renumber (t : Ty) : (t.renumber r).renumber r.symm = t := by
  induction t using Ty.induction with
  | named symbol args ih =>
    rw [renumber_named, renumber_named, Equiv.symm_apply_apply, List.map_map]
    exact congrArg _ ((List.map_congr_left ih).trans (List.map_id' args))
  | array element rank ih => simp [ih]
  | param index name => simp

theorem renumber_injective : Function.Injective (renumber r) :=
  Function.LeftInverse.injective (renumber_symm_renumber r)

theorem unifies_renumber (t u : Ty) :
    (t.renumber r).unifies (u.renumber r) = t.unifies u := by
  induction t using Ty.induction generalizing u with
  | named symbol args ih =>
    cases u with
    | named other others =>
      simp only [renumber_named, unifies, unifiesAll_map ih]
      congr 1
      rw [Bool.eq_iff_iff, beq_iff_eq, beq_iff_eq, r.apply_eq_iff_eq]
    | array element rank => simp [unifies]
    | param index name => simp [unifies]
  | array element rank ih =>
    cases u with
    | named other others => simp [unifies]
    | array element' rank' => simp [unifies, ih]
    | param index name => simp [unifies]
  | param index name => simp [unifies]

theorem renumber_definition (symbol : Symbol) (generics : List String) :
    (definition symbol generics).renumber r = .definition (r symbol) generics := by
  rw [definition, renumber_named, definition]
  refine congrArg _ (List.ext_getElem (by simp) fun i _ _ => ?_)
  simp

end Ty

/-! ### Declarations -/

def Argument.renumber : Argument → Argument
  | .type t => .type (t.renumber r)
  | other => other

def Attribute.renumber (a : Attribute) : Attribute := ⟨r a.symbol, a.args.map (·.renumber r)⟩

def Member.renumber (m : Member) : Member :=
  { m with type := m.type.map (·.renumber r), params := m.params.map (·.renumber r),
           attributes := m.attributes.map (·.renumber r) }

def TypeDef.renumber (d : TypeDef) : TypeDef :=
  { d with base := d.base.map (·.renumber r), underlying := d.underlying.map (·.renumber r),
           attributes := d.attributes.map (·.renumber r), members := d.members.map (·.renumber r) }

@[simp] theorem TypeDef.kind_renumber (d : TypeDef) : (d.renumber r).kind = d.kind := rfl

@[simp] theorem TypeDef.attributes_renumber (d : TypeDef) :
    (d.renumber r).attributes = d.attributes.map (·.renumber r) := rfl

@[simp] theorem TypeDef.metadataName_renumber (d : TypeDef) :
    (d.renumber r).metadataName = d.metadataName := rfl

/-! ### Nodes -/

def NamedType.renumber (n : NamedType) : NamedType := ⟨n.type.renumber r, n.name⟩

def NodeMember.renumber (m : NodeMember) : NodeMember :=
  { m with declared := m.declared.renumber r, formatter := m.formatter.map (·.renumber r) }

def Variant.renumber (v : Variant) : Variant := ⟨v.tag, v.type.renumber r⟩

def Defect.renumber : Defect → Defect
  | .keyArgument context argument => .keyArgument context (argument.renumber r)
  | other => other

def Node.renumber (n : Node) : Node :=
  { n with self := n.self.renumber r, members := n.members.map (·.renumber r),
           bases := n.bases.map (·.renumber r), variants := n.variants.map (·.renumber r),
           elements := n.elements.map (·.renumber r), formatter := n.formatter.map (·.renumber r),
           defects := n.defects.map (·.renumber r) }

@[simp] theorem NamedType.type_renumber (n : NamedType) :
    (n.renumber r).type = n.type.renumber r := rfl

@[simp] theorem NamedType.name_renumber (n : NamedType) : (n.renumber r).name = n.name := rfl

@[simp] theorem Node.name_renumber (n : Node) : (n.renumber r).name = n.name := rfl

@[simp] theorem Node.kind_renumber (n : Node) : (n.renumber r).kind = n.kind := rfl

/-- A node refers to the renumbered types in the same order. -/
theorem Node.refs_renumber (n : Node) : (n.renumber r).refs = n.refs.map (·.renumber r) := by
  simp [refs, renumber, NodeMember.renumber, Variant.renumber, List.filter_map, Function.comp_def]

def Setting.Level.renumber (level : Setting.Level) : Setting.Level :=
  ⟨level.type.renumber r, level.origin⟩

def Setting.KeyChoice.renumber : Setting.KeyChoice → Setting.KeyChoice
  | .defect d => .defect (d.renumber r)
  | other => other

/-! ### Roles -/

def Roles.renumber (roles : Roles) : Roles where
  object := r roles.object
  key := roles.key.map r
  ignoreMember := roles.ignoreMember.map r
  ignoreDataMember := roles.ignoreDataMember.map r
  union := roles.union.map r
  formatter := roles.formatter.map r
  builtins := roles.builtins.map fun (symbol, b) => (r symbol, b)
  collections := roles.collections.map fun (symbol, c) => (r symbol, c)
  byte := roles.byte.map r

theorem lookup_map_renumber {β : Type} (entries : List (Symbol × β)) (symbol : Symbol) :
    (entries.map fun (key, value) => (r key, value)).lookup (r symbol) = entries.lookup symbol := by
  induction entries with
  | nil => rfl
  | cons entry rest ih =>
    have hkey : (r symbol == r entry.1) = (symbol == entry.1) := by
      rw [Bool.eq_iff_iff, beq_iff_eq, beq_iff_eq, r.apply_eq_iff_eq]
    rw [List.map_cons, List.lookup_cons, List.lookup_cons, hkey, ih]

namespace Roles

variable (roles : Roles)

@[simp] theorem builtin?_renumber (symbol : Symbol) :
    (roles.renumber r).builtin? (r symbol) = roles.builtin? symbol :=
  lookup_map_renumber r roles.builtins symbol

@[simp] theorem collection?_renumber (symbol : Symbol) :
    (roles.renumber r).collection? (r symbol) = roles.collection? symbol :=
  lookup_map_renumber r roles.collections symbol

@[simp] theorem isByte_renumber (symbol : Symbol) :
    (roles.renumber r).isByte (r symbol) = roles.isByte symbol := by
  rw [isByte, isByte, Bool.eq_iff_iff, beq_iff_eq, beq_iff_eq]
  exact (Option.map_injective r.injective).eq_iff (b := some symbol)

theorem some_symbol_renumber (role : Option Symbol) (a : Attribute) :
    (some (a.renumber r).symbol == role.map r) = (some a.symbol == role) := by
  rw [Bool.eq_iff_iff, beq_iff_eq, beq_iff_eq]
  exact (Option.map_injective r.injective).eq_iff (a := some a.symbol)

theorem findAll_renumber (role : Option Symbol) (attributes : List Attribute) :
    findAll (role.map r) (attributes.map (·.renumber r)) =
      (findAll role attributes).map (·.renumber r) := by
  simp only [findAll, List.filter_map, Function.comp_def, some_symbol_renumber]

theorem find?_renumber (role : Option Symbol) (attributes : List Attribute) :
    find? (role.map r) (attributes.map (·.renumber r)) =
      (find? role attributes).map (·.renumber r) := by
  simp only [find?, List.find?_map, Function.comp_def, some_symbol_renumber]

@[simp] theorem isIgnored_renumber (attributes : List Attribute) :
    (roles.renumber r).isIgnored (attributes.map (·.renumber r)) = roles.isIgnored attributes := by
  simp [isIgnored, renumber, find?_renumber]

theorem objectAttribute?_renumber (attributes : List Attribute) :
    (roles.renumber r).objectAttribute? (attributes.map (·.renumber r)) =
      (roles.objectAttribute? attributes).map (·.renumber r) :=
  find?_renumber r (some roles.object) attributes

end Roles

end FormatterPlan
