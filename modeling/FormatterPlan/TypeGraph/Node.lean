import FormatterPlan.Assembly.Basic
import FormatterPlan.Catalog.Builtin
import FormatterPlan.Catalog.Collection

/-! The nodes of a type graph.  A node says how a type is to be written and which types it refers
to.  Types carry their names, and it is by name that one node refers to another. -/

namespace FormatterPlan

structure NamedType where
  type : Ty
  name : TypeName
deriving DecidableEq

def Assembly.withName (asm : Assembly) (type : Ty) : NamedType := ⟨type, asm.typeName type⟩

/-- How a type is to be written, in outline.  Definitions that are open, with their parameters as
arguments, are checked but never written. -/
inductive NodeKind where
  | object (keysAsNames : Bool) (isOpen : Bool)
  | union (isOpen : Bool)
  | collection (shape : CollectionShape)
  | builtin (builtin : Builtin)
  | enumeration
  /-- Another resolver formats the type. -/
  | assumed
  | unresolved
deriving DecidableEq

namespace NodeKind

def isObject : NodeKind → Bool
  | .object .. => true
  | _ => false

def isUnion : NodeKind → Bool
  | .union _ => true
  | _ => false

end NodeKind

/-- The key of a written member.  A key attribute without a value gives the null key. -/
inductive MemberKey where
  | int (n : Int)
  | string (s : String)
  | null
  | unattributed
deriving DecidableEq

/-- Whether a member has a position or a name in the layout of its object. -/
def MemberKey.isKeyed : MemberKey → Bool
  | .int _ | .string _ => true
  | _ => false

/-- Where a member comes from: the type itself or a base, which may or may not be marked as an
object. -/
inductive MemberOrigin where
  | own
  | inherited (base : TypeName) (attributed : Bool)
deriving DecidableEq

/-- A written member of an object.  Its type is open only in an open definition. -/
structure NodeMember where
  name : String
  declared : NamedType
  access : Access
  key : MemberKey
  formatter : Option NamedType
  origin : MemberOrigin
deriving DecidableEq

structure Variant where
  tag : Int
  type : NamedType
deriving DecidableEq

/-- An attribute that is used in a wrong way, or a base chain that comes back to itself. -/
inductive Defect where
  | cyclicBases (type : TypeName)
  | keyRange (context : String) (key : Int)
  | keyArgument (context : String) (argument : Argument)
  | noFormatterType (context : String)
  | unionArguments (type : TypeName)
deriving DecidableEq

structure Node where
  self : NamedType
  kind : NodeKind
  /-- The written members of an object: those of the outermost base first, its own last. -/
  members : List NodeMember
  /-- The closed bases of an object, nearest first. -/
  bases : List NamedType
  variants : List Variant
  /-- The arguments of a collection, the element of an array, or the values of an enumeration. -/
  elements : List NamedType
  /-- The formatter that the declaration itself names. -/
  formatter : Option NamedType
  defects : List Defect
deriving DecidableEq

namespace Node

def name (node : Node) : TypeName := node.self.name

/-- The types that a node refers to, in the order in which they are discovered. -/
def refs (node : Node) : List NamedType :=
  node.bases ++ (node.members.map (·.declared)).filter (·.type.isClosed) ++
    node.variants.map (·.type) ++ node.elements

/-- Whether an object is written as a map: because all are, or because a key is a string. -/
def isMapEncoded (node : Node) (mapMode : Bool) : Bool :=
  mapMode || node.members.any fun m => match m.key with
    | .string _ => true
    | _ => false

end Node

end FormatterPlan
