import FormatterPlan.Options
import FormatterPlan.Roles
import FormatterPlan.TypeGraph.Node

/-! The node of a type.  It depends on the type alone, not on the graph that the type is found in:
the declaration, with the arguments of the type in the place of its parameters, decides how the type
is written and what it refers to. -/

namespace FormatterPlan

/-- What the nodes of a graph are made from: declarations, the roles of symbols, and options. -/
structure Setting where
  assembly : Assembly
  roles : Roles
  options : Options

namespace Setting

def named (s : Setting) (type : Ty) : NamedType := s.assembly.withName type

/-- Whether another resolver formats a declaration. -/
def isAssumed (s : Setting) (d : TypeDef) : Bool :=
  s.options.assumed.contains d.name || s.options.assumed.contains d.metadataName

/-- The kind of an array.  Arrays of bytes have a formatter of their own. -/
def arrayKind (s : Setting) (element : Ty) (rank : Nat) : NodeKind :=
  if rank = 1 && element.symbol?.any s.roles.isByte then .builtin .byteArray
  else match CollectionShape.ofRank? rank with
    | some shape => .collection shape
    | none => .unresolved

/-- The kind of a declared type by the attributes of its declaration.  Interfaces and abstract
classes may be unions, and all but interfaces may be objects. -/
def markedKind (s : Setting) (d : TypeDef) (isOpen : Bool) : NodeKind :=
  let isAbstract := d.kind = .interface || d.kind = .abstractClass
  if isAbstract && (Roles.find? s.roles.union d.attributes).isSome then .union isOpen
  else if d.kind = .interface then .unresolved
  else match s.roles.objectAttribute? d.attributes with
    | some a => .object (a.args.head? == some (.bool true)) isOpen
    | none => .unresolved

/-- The kind of a declared type.  What another resolver formats is looked at no further. -/
def declaredKind (s : Setting) (symbol : Symbol) (args : List Ty) : NodeKind :=
  match s.assembly.def? symbol with
  | none => .unresolved
  | some d =>
    if s.isAssumed d then .assumed
    else match s.roles.builtin? symbol, s.roles.collection? symbol with
      | some b, _ => .builtin b
      | none, some shape => .collection shape
      | none, none =>
        if d.kind = .enumeration then .enumeration
        else s.markedKind d (!args.all Ty.isClosed)

def kindOf (s : Setting) : Ty → NodeKind
  | .named symbol args => s.declaredKind symbol args
  | .array element rank => s.arrayKind element rank
  | .param .. => .unresolved

/-- The formatter that attributes name, with the arguments `context` put in, or the defect of an
attribute that names none. -/
def formatterOf (s : Setting) (attributes : List Attribute) (context : List Ty) (place : String) :
    Option NamedType × List Defect :=
  match Roles.find? s.roles.formatter attributes with
  | none => (none, [])
  | some a =>
    match a.args with
    | .type formatter :: _ => (some (s.named (formatter.subst context)), [])
    | _ => (none, [.noFormatterType place])

/-- A type of an inheritance chain, and what its members have as their origin. -/
structure Level where
  type : NamedType
  origin : MemberOrigin

/-- The bases of a type, nearest first, and whether the chain comes back to a declaration in `seen`.
Each step adds a declaration to `seen`, so there are no more steps than declarations. -/
def basesAbove (s : Setting) : (steps : Nat) → (seen : List Symbol) → Ty → List Level × Bool
  | 0, _, _ => ([], false)
  | steps + 1, seen, type =>
    match type.symbol?.bind s.assembly.baseOf with
    | none => ([], false)
    | some written =>
      let base := written.subst type.args
      match base.symbol? with
      | none => ([], false)
      | some symbol =>
        if seen.contains symbol then ([], true)
        else
          let named := s.named base
          let attributed :=
            (s.roles.objectAttribute? (s.assembly.attributesOf symbol)).isSome
          let (above, cyclic) := s.basesAbove steps (symbol :: seen) base
          (⟨named, .inherited named.name attributed⟩ :: above, cyclic)

/-- The bases of a type, nearest first, and whether the chain comes back to a declaration. -/
def basesOf (s : Setting) (type : Ty) : List Level × Bool :=
  s.basesAbove s.assembly.defs.size type.symbol?.toList type

/-- What the attributes of a member say about its key. -/
inductive KeyChoice where
  | key (key : MemberKey)
  | ignored
  | defect (defect : Defect)

/-- The key of a member.  A key attribute counts before the policy that makes names of public
members their keys. -/
def keyOf (s : Setting) (m : Member) (keysAsNames : Bool) (place : String) : KeyChoice :=
  if s.roles.isIgnored m.attributes then .ignored
  else match Roles.find? s.roles.key m.attributes with
    | some a =>
      match a.args with
      | .int n :: _ =>
        if -(Int.pow 2 31) ≤ n ∧ n < Int.pow 2 31 then .key (.int n)
        else .defect (.keyRange place n)
      | .string name :: _ => .key (.string name)
      | [] => .key .null
      | .null :: _ => .key .null
      | other :: _ => .defect (.keyArgument place other)
    | none =>
      if keysAsNames && m.access = .everyone then .key (.string m.name) else .key .unattributed

/-- A data member of a level as a member of the node, and its defects.  Members are left out that
are ignored, whose key has a defect, or that have no key attribute and are not public. -/
def memberOf (s : Setting) (keysAsNames : Bool) (level : Level) (m : Member) :
    List NodeMember × List Defect :=
  let place := level.type.name.text ++ "." ++ m.name
  match m.type, s.keyOf m keysAsNames place with
  | none, _ => ([], [])
  | some _, .ignored => ([], [])
  | some _, .defect defect => ([], [defect])
  | some type, .key key =>
    if key = .unattributed ∧ m.access ≠ .everyone then ([], [])
    else
      let context := level.type.type.args
      let (formatter, defects) := s.formatterOf m.attributes context place
      ([{ name := m.name, declared := s.named (type.subst context), access := m.access, key,
          formatter, origin := level.origin }], defects)

def membersOf (s : Setting) (keysAsNames : Bool) (level : Level) :
    List NodeMember × List Defect :=
  let data := (level.type.type.symbol?.elim [] s.assembly.membersOf).filter Member.isData
  let found := data.map (s.memberOf keysAsNames level)
  (found.flatMap (·.1), found.flatMap (·.2))

/-- The variant that a union attribute names.  A variant that is not closed is left out. -/
def variantOf (s : Setting) (type : NamedType) (a : Attribute) : List Variant × List Defect :=
  match a.args with
  | [.int tag, .type written] =>
    let variant := written.subst type.type.args
    (if variant.isClosed then [⟨tag, s.named variant⟩] else [], [])
  | _ => ([], [.unionArguments type.name])

/-- The types that a node of kind collection or enumeration is made of. -/
def elementsOf (s : Setting) : NodeKind → Ty → List NamedType
  | .collection _, .array element _ => [s.named element]
  | .collection _, .named _ args => args.map s.named
  | .enumeration, .named symbol _ =>
    (((s.assembly.def? symbol).bind (·.underlying)).map s.named).toList
  | _, _ => []

def nodeOf (s : Setting) (type : Ty) : Node :=
  let self := s.named type
  let kind := s.kindOf type
  let attributes := type.symbol?.elim [] s.assembly.attributesOf
  let (formatter, formatterDefects) := s.formatterOf attributes type.args self.name.text
  let bare : Node :=
    { self, kind, members := [], bases := [], variants := [], elements := s.elementsOf kind type,
      formatter, defects := formatterDefects }
  match kind with
  | .object keysAsNames _ =>
    let (bases, cyclic) := s.basesOf type
    let levels := (⟨self, .own⟩ :: bases).reverse.map (s.membersOf keysAsNames)
    { bare with
      bases := (bases.map (·.type)).filter (·.type.isClosed)
      members := levels.flatMap (·.1)
      defects := formatterDefects ++ (if cyclic then [.cyclicBases self.name] else []) ++
        levels.flatMap (·.2) }
  | .union _ =>
    let variants := (Roles.findAll s.roles.union attributes).map (s.variantOf self)
    { bare with
      variants := variants.flatMap (·.1)
      defects := formatterDefects ++ variants.flatMap (·.2) }
  | _ => bare

end Setting

end FormatterPlan
