import FormatterPlan.Declaration.Basic
import FormatterPlan.Name
import FormatterPlan.Ty
import FormatterPlan.TypeName

/-! Assemblies: declarations whose types and attributes are resolved.  A symbol is the position of a
declaration, and the declarations of the prelude come first. -/

namespace FormatterPlan

inductive Argument where
  | int (value : Int)
  | string (value : String)
  | bool (value : Bool)
  | null
  | type (type : Ty)
deriving DecidableEq

structure Attribute where
  symbol : Symbol
  args : List Argument
deriving DecidableEq

structure Member where
  name : String
  kind : MemberKind
  /-- The type of a field or property, or the result type of a method that has one. -/
  type : Option Ty
  params : List Ty
  access : Access
  isStatic : Bool
  attributes : List Attribute
deriving DecidableEq

/-- Fields and properties of an instance hold data; methods and static members do not. -/
def Member.isData (m : Member) : Bool := !m.isStatic && m.kind != .method

/-- A declaration of a type. -/
structure TypeDef where
  name : String
  kind : DeclKind
  generics : List String
  base : Option Ty
  /-- The type of an enumeration's values. -/
  underlying : Option Ty
  attributes : List Attribute
  members : List Member
deriving DecidableEq

/-- The dotted name with the arity mark. -/
def TypeDef.metadataName (d : TypeDef) : String :=
  FormatterPlan.metadataName d.name d.generics.length

def TypeDef.simpleName (d : TypeDef) : String := Text.lastSegment d.name

/-- The declarations of an assembly.  The first `preludeSize` of them are not the user's. -/
structure Assembly where
  defs : Array TypeDef
  preludeSize : Nat

namespace Assembly

def def? (asm : Assembly) (symbol : Symbol) : Option TypeDef := asm.defs[symbol.index]?

def userSymbols (asm : Assembly) : List Symbol :=
  (List.range' asm.preludeSize (asm.defs.size - asm.preludeSize)).map Symbol.mk

def preludeSymbols (asm : Assembly) : List Symbol := (List.range asm.preludeSize).map Symbol.mk

/-- The symbol of the last declaration that satisfies `p`. -/
def findLast? (asm : Assembly) (p : TypeDef → Bool) : Option Symbol :=
  (asm.defs.toList.zipIdx.reverse.find? fun (d, _) => p d).map fun (_, i) => ⟨i⟩

def byMetadataName? (asm : Assembly) (name : String) : Option Symbol :=
  asm.findLast? (·.metadataName == name)

/-- Whether a symbol's full name or last segment is `name`. -/
def isNamed (asm : Assembly) (name : String) (symbol : Symbol) : Bool :=
  match asm.def? symbol with
  | some d => d.name == name || d.simpleName == name
  | none => false

/-- The declaration of a name: the one with this metadata name or, if there is none, the only one
whose full name or last segment it is. -/
def lookup (asm : Assembly) (name : String) : Option Symbol :=
  match asm.byMetadataName? name with
  | some symbol => some symbol
  | none =>
    match (asm.userSymbols ++ asm.preludeSymbols).filter (asm.isNamed name) with
    | [only] => some only
    | _ => none

def attributesOf (asm : Assembly) (symbol : Symbol) : List Attribute :=
  (asm.def? symbol).elim [] (·.attributes)

def membersOf (asm : Assembly) (symbol : Symbol) : List Member :=
  (asm.def? symbol).elim [] (·.members)

/-- The base of a declaration, over its own parameters. -/
def baseOf (asm : Assembly) (symbol : Symbol) : Option Ty := (asm.def? symbol).bind (·.base)

def genericsOf (asm : Assembly) (symbol : Symbol) : List String :=
  (asm.def? symbol).elim [] (·.generics)

def nameOf (asm : Assembly) (symbol : Symbol) : String := (asm.def? symbol).elim "" (·.name)

mutual

/-- The name of a type: symbols give way to the full names of their declarations. -/
def typeName (asm : Assembly) : Ty → TypeName
  | .named symbol args => .named (asm.nameOf symbol) (asm.typeNames args)
  | .array element rank => .array (asm.typeName element) rank
  | .param _ name => .param name

def typeNames (asm : Assembly) : List Ty → List TypeName
  | [] => []
  | t :: ts => asm.typeName t :: asm.typeNames ts

end

theorem typeNames_eq_map (asm : Assembly) (ts : List Ty) :
    asm.typeNames ts = ts.map asm.typeName := by
  induction ts with
  | nil => rfl
  | cons t ts ih => rw [typeNames, ih, List.map_cons]

end Assembly

end FormatterPlan
