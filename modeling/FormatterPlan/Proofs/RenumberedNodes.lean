import FormatterPlan.Proofs.References
import FormatterPlan.Proofs.Renumbering
import FormatterPlan.TypeGraph.FormatterShape

/-! Nodes under new numbers.  Whatever makes a node reads symbols only to find declarations and to
compare them, so the node of a renumbered type over renumbered declarations is the renumbered node.
Each function on the way has a lemma that says so of its results. -/

namespace FormatterPlan

/-- Whether an assembly holds the declarations of another one under new numbers, with those of the
prelude where they were. -/
structure Assembly.Renumbers (r : Renumbering) (asm asm' : Assembly) : Prop where
  def? : ∀ symbol, asm'.def? (r symbol) = (asm.def? symbol).map (TypeDef.renumber r)
  size : asm'.defs.size = asm.defs.size
  preludeSize : asm'.preludeSize = asm.preludeSize
  prelude : ∀ symbol, symbol.index < asm.preludeSize → r symbol = symbol

/-- Whether a setting is another one under new numbers. -/
structure Setting.Renumbers (r : Renumbering) (s s' : Setting) : Prop where
  assembly : s.assembly.Renumbers r s'.assembly
  roles : s'.roles = s.roles.renumber r
  options : s'.options = s.options

variable {r : Renumbering}

namespace Assembly.Renumbers

variable {asm asm' : Assembly}

section

variable (h : asm.Renumbers r asm')

include h

theorem nameOf (symbol : Symbol) : asm'.nameOf (r symbol) = asm.nameOf symbol := by
  rw [Assembly.nameOf, Assembly.nameOf, h.def?]
  cases asm.def? symbol <;> rfl

theorem genericsOf (symbol : Symbol) : asm'.genericsOf (r symbol) = asm.genericsOf symbol := by
  rw [Assembly.genericsOf, Assembly.genericsOf, h.def?]
  cases asm.def? symbol <;> rfl

theorem attributesOf (symbol : Symbol) :
    asm'.attributesOf (r symbol) = (asm.attributesOf symbol).map (·.renumber r) := by
  rw [Assembly.attributesOf, Assembly.attributesOf, h.def?]
  cases asm.def? symbol <;> rfl

theorem membersOf (symbol : Symbol) :
    asm'.membersOf (r symbol) = (asm.membersOf symbol).map (·.renumber r) := by
  rw [Assembly.membersOf, Assembly.membersOf, h.def?]
  cases asm.def? symbol <;> rfl

theorem baseOf (symbol : Symbol) :
    asm'.baseOf (r symbol) = (asm.baseOf symbol).map (·.renumber r) := by
  rw [Assembly.baseOf, Assembly.baseOf, h.def?]
  cases asm.def? symbol <;> rfl

theorem typeName (t : Ty) : asm'.typeName (t.renumber r) = asm.typeName t := by
  induction t using Ty.induction with
  | named symbol args ih =>
    simp only [Ty.renumber_named, typeName_named, List.map_map, h.nameOf]
    exact congrArg _ (List.map_congr_left ih)
  | array element rank ih => simpa using ih
  | param index name => simp

theorem withName (t : Ty) : asm'.withName (t.renumber r) = (asm.withName t).renumber r := by
  rw [Assembly.withName, h.typeName]
  rfl

theorem instanceMethods (symbol : Symbol) (name : String) :
    asm'.instanceMethods (r symbol) name =
      (asm.instanceMethods symbol name).map (·.renumber r) := by
  rw [Assembly.instanceMethods, Assembly.instanceMethods, h.membersOf, List.filter_map]
  rfl

/-- What is a formatter of a type stays one. -/
theorem isFormatterOf (formatter target : Ty) :
    asm'.isFormatterOf (formatter.renumber r) (target.renumber r) =
      asm.isFormatterOf formatter target := by
  have htarget : ∀ t : Ty, ((t.renumber r).subst (formatter.args.map (·.renumber r))).unifies
      (target.renumber r) = (t.subst formatter.args).unifies target := by
    intro t
    rw [← Ty.renumber_subst, Ty.unifies_renumber]
  unfold Assembly.isFormatterOf
  cases hsymbol : formatter.symbol? with
  | none => simp [hsymbol]
  | some symbol =>
    have hkind : (asm'.def? (r symbol)).map (·.kind) = (asm.def? symbol).map (·.kind) := by
      rw [h.def?, Option.map_map]
      rfl
    simp only [Ty.symbol?_renumber, hsymbol, Option.map_some, hkind, h.instanceMethods,
      List.any_map, Function.comp_def, Member.renumber, Ty.args_renumber, htarget,
      Option.any_map]

end

end Assembly.Renumbers

namespace Setting.Renumbers

variable {s s' : Setting} (h : s.Renumbers r s')

include h

theorem named (t : Ty) : s'.named (t.renumber r) = (s.named t).renumber r :=
  h.assembly.withName t

/-! ### Kinds -/

theorem isAssumed (d : TypeDef) : s'.isAssumed (d.renumber r) = s.isAssumed d := by
  rw [Setting.isAssumed, Setting.isAssumed, h.options]
  rfl

theorem arrayKind (element : Ty) (rank : Nat) :
    s'.arrayKind (element.renumber r) rank = s.arrayKind element rank := by
  have hbyte : (element.renumber r).symbol?.any s'.roles.isByte =
      element.symbol?.any s.roles.isByte := by
    rw [h.roles, Ty.symbol?_renumber]
    cases element.symbol? <;> simp
  rw [Setting.arrayKind, Setting.arrayKind, hbyte]

theorem objectAttribute? (attributes : List Attribute) :
    s'.roles.objectAttribute? (attributes.map (·.renumber r)) =
      (s.roles.objectAttribute? attributes).map (·.renumber r) := by
  rw [h.roles, Roles.objectAttribute?_renumber]

theorem find?_union (attributes : List Attribute) :
    Roles.find? s'.roles.union (attributes.map (·.renumber r)) =
      (Roles.find? s.roles.union attributes).map (·.renumber r) := by
  rw [h.roles]
  exact Roles.find?_renumber r s.roles.union attributes

theorem markedKind (d : TypeDef) (isOpen : Bool) :
    s'.markedKind (d.renumber r) isOpen = s.markedKind d isOpen := by
  have hflag : ∀ a : Attribute, ((a.renumber r).args.head? == some (.bool true)) =
      (a.args.head? == some (.bool true)) := by
    intro a
    cases hargs : a.args with
    | nil => simp [Attribute.renumber, hargs]
    | cons arg rest => cases arg <;> simp [Attribute.renumber, hargs, Argument.renumber]
  unfold Setting.markedKind
  rw [TypeDef.kind_renumber, TypeDef.attributes_renumber, h.objectAttribute?, h.find?_union,
    Option.isSome_map]
  cases s.roles.objectAttribute? d.attributes with
  | none => rfl
  | some a =>
    dsimp only [Option.map_some]
    rw [hflag]

theorem declaredKind (symbol : Symbol) (args : List Ty) :
    s'.declaredKind (r symbol) (args.map (·.renumber r)) = s.declaredKind symbol args := by
  unfold Setting.declaredKind
  rw [h.assembly.def?, h.roles]
  cases s.assembly.def? symbol with
  | none => rfl
  | some d =>
    have hclosed : (args.map (·.renumber r)).all Ty.isClosed = args.all Ty.isClosed := by
      simp [List.all_map, Function.comp_def]
    simp only [Option.map_some, h.isAssumed, h.markedKind, hclosed, Roles.builtin?_renumber,
      Roles.collection?_renumber]
    rfl

theorem kindOf (t : Ty) : s'.kindOf (t.renumber r) = s.kindOf t := by
  cases t with
  | named symbol args =>
    rw [Ty.renumber_named]
    exact h.declaredKind symbol args
  | array element rank =>
    rw [Ty.renumber_array]
    exact h.arrayKind element rank
  | param index name =>
    rw [Ty.renumber_param]
    rfl

/-! ### Formatters and members -/

/-- What is made at once of parts and defects, renumbered. -/
theorem formatterOf (attributes : List Attribute) (context : List Ty) (place : String) :
    s'.formatterOf (attributes.map (·.renumber r)) (context.map (·.renumber r)) place =
      ((s.formatterOf attributes context place).1.map (·.renumber r),
        (s.formatterOf attributes context place).2.map (·.renumber r)) := by
  unfold Setting.formatterOf
  rw [h.roles, Roles.renumber]
  dsimp only
  rw [Roles.find?_renumber]
  cases Roles.find? s.roles.formatter attributes with
  | none => rfl
  | some a =>
    dsimp only [Option.map_some]
    cases hargs : a.args with
    | nil => simp [Attribute.renumber, hargs, Defect.renumber]
    | cons arg rest =>
      cases arg with
      | type formatter =>
        simp [Attribute.renumber, hargs, Argument.renumber, ← Ty.renumber_subst, h.named]
      | _ => simp [Attribute.renumber, hargs, Argument.renumber, Defect.renumber]

theorem basesAbove (steps : Nat) (seen : List Symbol) (t : Ty) :
    s'.basesAbove steps (seen.map r) (t.renumber r) =
      ((s.basesAbove steps seen t).1.map (·.renumber r), (s.basesAbove steps seen t).2) := by
  induction steps generalizing seen t with
  | zero => rfl
  | succ steps ih =>
    have hwritten : (t.renumber r).symbol?.bind s'.assembly.baseOf =
        (t.symbol?.bind s.assembly.baseOf).map (·.renumber r) := by
      rw [Ty.symbol?_renumber]
      cases t.symbol? with
      | none => rfl
      | some symbol => exact h.assembly.baseOf symbol
    rw [Setting.basesAbove, Setting.basesAbove, hwritten]
    cases t.symbol?.bind s.assembly.baseOf with
    | none => rfl
    | some written =>
      dsimp only [Option.map_some]
      rw [Ty.args_renumber, ← Ty.renumber_subst, Ty.symbol?_renumber]
      generalize written.subst t.args = base
      cases base.symbol? with
      | none => rfl
      | some symbol =>
        have hseen : (seen.map r).contains (r symbol) = seen.contains symbol := by
          rw [Bool.eq_iff_iff, List.contains_iff_mem, List.contains_iff_mem,
            List.mem_map_of_injective r.injective]
        dsimp only [Option.map_some]
        rw [hseen]
        split
        · rfl
        · rw [h.named, h.assembly.attributesOf, h.objectAttribute?, Option.isSome_map,
            ← List.map_cons, ih]
          rfl

theorem basesOf (t : Ty) : s'.basesOf (t.renumber r) =
    ((s.basesOf t).1.map (·.renumber r), (s.basesOf t).2) := by
  have hseen : (t.renumber r).symbol?.toList = t.symbol?.toList.map r := by
    rw [Ty.symbol?_renumber]
    cases t.symbol? <;> rfl
  rw [Setting.basesOf, Setting.basesOf, h.assembly.size, hseen, h.basesAbove]

theorem keyOf (m : Member) (keysAsNames : Bool) (place : String) :
    s'.keyOf (m.renumber r) keysAsNames place = (s.keyOf m keysAsNames place).renumber r := by
  have hignored : s'.roles.isIgnored (m.renumber r).attributes =
      s.roles.isIgnored m.attributes := by
    rw [h.roles]
    exact Roles.isIgnored_renumber r s.roles m.attributes
  have hkey : Roles.find? s'.roles.key (m.renumber r).attributes =
      (Roles.find? s.roles.key m.attributes).map (·.renumber r) := by
    rw [h.roles]
    exact Roles.find?_renumber r s.roles.key m.attributes
  unfold Setting.keyOf
  rw [hignored, hkey]
  split
  · rfl
  · cases Roles.find? s.roles.key m.attributes with
    | none =>
      rw [Option.map_none]
      change (if keysAsNames && m.access = .everyone then KeyChoice.key (.string m.name) else _) = _
      split_ifs <;> rfl
    | some a =>
      obtain ⟨symbol, args⟩ := a
      match args with
      | .int n :: _ =>
        simp only [Option.map_some, Attribute.renumber, List.map_cons, Argument.renumber]
        split_ifs <;> rfl
      | .string _ :: _ | [] | .null :: _ | .bool _ :: _ | .type _ :: _ => rfl

theorem memberOf (keysAsNames : Bool) (level : Level) (m : Member) :
    s'.memberOf keysAsNames (level.renumber r) (m.renumber r) =
      ((s.memberOf keysAsNames level m).1.map (·.renumber r),
        (s.memberOf keysAsNames level m).2.map (·.renumber r)) := by
  have hkey : s'.keyOf (m.renumber r) keysAsNames
      ((level.renumber r).type.name.text ++ "." ++ (m.renumber r).name) =
        (s.keyOf m keysAsNames (level.type.name.text ++ "." ++ m.name)).renumber r :=
    h.keyOf m keysAsNames _
  have htype : (m.renumber r).type = m.type.map (·.renumber r) := rfl
  unfold Setting.memberOf
  dsimp only
  rw [hkey, htype]
  cases m.type with
  | none => rfl
  | some type =>
    generalize s.keyOf m keysAsNames (level.type.name.text ++ "." ++ m.name) = choice
    cases choice with
    | ignored => rfl
    | defect d => rfl
    | key key =>
      have hargs : (level.renumber r).type.type.args =
          level.type.type.args.map (·.renumber r) := Ty.args_renumber r level.type.type
      have hformatter := h.formatterOf m.attributes level.type.type.args
        (level.type.name.text ++ "." ++ m.name)
      simp only [Option.map_some, KeyChoice.renumber, hargs, ← Ty.renumber_subst, h.named]
      simp only [Member.renumber, Level.renumber, NamedType.name_renumber, hformatter]
      split_ifs <;> rfl

theorem membersOf (keysAsNames : Bool) (level : Level) :
    s'.membersOf keysAsNames (level.renumber r) =
      ((s.membersOf keysAsNames level).1.map (·.renumber r),
        (s.membersOf keysAsNames level).2.map (·.renumber r)) := by
  have hdata : ((level.renumber r).type.type.symbol?.elim [] s'.assembly.membersOf).filter
      Member.isData = ((level.type.type.symbol?.elim [] s.assembly.membersOf).filter
        Member.isData).map (·.renumber r) := by
    have hmembers : (level.renumber r).type.type.symbol?.elim [] s'.assembly.membersOf =
        (level.type.type.symbol?.elim [] s.assembly.membersOf).map (·.renumber r) := by
      dsimp only [Level.renumber, NamedType.type_renumber]
      rw [Ty.symbol?_renumber]
      cases level.type.type.symbol? with
      | none => rfl
      | some symbol => exact h.assembly.membersOf symbol
    rw [hmembers, List.filter_map]
    rfl
  unfold Setting.membersOf
  dsimp only
  rw [hdata]
  simp only [List.map_map, Function.comp_def, h.memberOf, List.flatMap_map, List.map_flatMap]

theorem variantOf (type : NamedType) (a : Attribute) :
    s'.variantOf (type.renumber r) (a.renumber r) =
      ((s.variantOf type a).1.map (·.renumber r), (s.variantOf type a).2.map (·.renumber r)) := by
  obtain ⟨symbol, args⟩ := a
  match args with
  | [.int tag, .type written] =>
    simp only [Setting.variantOf, Attribute.renumber, List.map_cons, List.map_nil,
      Argument.renumber, NamedType.type_renumber, Ty.args_renumber, ← Ty.renumber_subst,
      Ty.isClosed_renumber, h.named]
    split_ifs <;> rfl
  | [] => rfl
  | [arg] => cases arg <;> rfl
  | first :: second :: _ :: _ => cases first <;> cases second <;> rfl
  | [.int _, .int _] | [.int _, .string _] | [.int _, .bool _] | [.int _, .null] => rfl
  | [.string _, _] | [.bool _, _] | [.null, _] | [.type _, _] => rfl

theorem elementsOf (kind : NodeKind) (t : Ty) :
    s'.elementsOf kind (t.renumber r) = (s.elementsOf kind t).map (·.renumber r) := by
  cases kind with
  | collection shape =>
    cases t with
    | named symbol args =>
      simp only [Ty.renumber_named, Setting.elementsOf, List.map_map, Function.comp_def, h.named]
    | array element rank =>
      simp only [Ty.renumber_array, Setting.elementsOf, h.named, List.map_cons, List.map_nil]
    | param index name => simp [Setting.elementsOf]
  | enumeration =>
    cases t with
    | named symbol args =>
      simp only [Ty.renumber_named, Setting.elementsOf, h.assembly.def?]
      cases s.assembly.def? symbol with
      | none => rfl
      | some d => cases hd : d.underlying <;> simp [TypeDef.renumber, hd, h.named]
    | array element rank => simp [Setting.elementsOf]
    | param index name => simp [Setting.elementsOf]
  | _ => rfl

/-- The members of all levels of a type, outermost base first. -/
theorem membersOfLevels (keysAsNames : Bool) (t : Ty) :
    (⟨(s.named t).renumber r, .own⟩ :: (s.basesOf t).1.map (·.renumber r)).reverse.map
        (s'.membersOf keysAsNames) =
      ((⟨s.named t, .own⟩ :: (s.basesOf t).1).reverse.map (s.membersOf keysAsNames)).map
        fun (members, defects) => (members.map (·.renumber r), defects.map (·.renumber r)) := by
  have hlevels : (⟨(s.named t).renumber r, .own⟩ :: (s.basesOf t).1.map (·.renumber r)) =
      (⟨s.named t, .own⟩ :: (s.basesOf t).1).map (Level.renumber r) := rfl
  rw [hlevels, ← List.map_reverse, List.map_map, List.map_map]
  exact List.map_congr_left fun level _ => h.membersOf keysAsNames level

/-- The node of a renumbered type is the renumbered node. -/
theorem nodeOf (t : Ty) : s'.nodeOf (t.renumber r) = (s.nodeOf t).renumber r := by
  have hattributes : (t.renumber r).symbol?.elim [] s'.assembly.attributesOf =
      (t.symbol?.elim [] s.assembly.attributesOf).map (·.renumber r) := by
    rw [Ty.symbol?_renumber]
    cases t.symbol? with
    | none => rfl
    | some symbol => exact h.assembly.attributesOf symbol
  unfold Setting.nodeOf
  simp only [h.kindOf, hattributes, Ty.args_renumber, h.named, h.elementsOf, h.basesOf,
    NamedType.name_renumber, h.formatterOf]
  cases s.kindOf t with
  | object keysAsNames isOpen =>
    dsimp only
    rw [h.membersOfLevels]
    have hbases : (((s.basesOf t).1.map (Level.renumber r)).map (·.type)).filter
        (·.type.isClosed) =
          (((s.basesOf t).1.map (·.type)).filter (·.type.isClosed)).map (·.renumber r) := by
      simp only [List.map_map, List.filter_map, Function.comp_def, Level.renumber,
        NamedType.type_renumber, Ty.isClosed_renumber]
    rw [hbases]
    simp only [Node.renumber, List.flatMap_map, List.map_flatMap, List.map_append]
    cases (s.basesOf t).2 <;> rfl
  | union isOpen =>
    simp only [Node.renumber, h.roles, Roles.renumber, Roles.findAll_renumber, List.map_map,
      Function.comp_def, h.variantOf, List.flatMap_map, List.map_flatMap, List.map_append]
    rfl
  | _ => rfl

end Setting.Renumbers

end FormatterPlan
