import FormatterPlan.Catalog.Builtin
import FormatterPlan.Catalog.Collection
import FormatterPlan.Declaration.Basic

/-! The declarations that every assembly starts with: the types with fixed formatters, the
collections, and the classes of the attributes that steer serialization. -/

namespace FormatterPlan

namespace AttributeName

def object : String := "MessagePack.MessagePackObjectAttribute"

def key : String := "MessagePack.KeyAttribute"

def ignoreMember : String := "MessagePack.IgnoreMemberAttribute"

def ignoreDataMember : String := "System.Runtime.Serialization.IgnoreDataMemberAttribute"

def union : String := "MessagePack.UnionAttribute"

def formatter : String := "MessagePack.MessagePackFormatterAttribute"

def all : List String := [object, key, ignoreMember, ignoreDataMember, union, formatter]

end AttributeName

namespace Prelude

/-- The generic parameters of a declaration of the prelude: `T` alone, or `T1`, `T2` and so on. -/
def genericNames (arity : Nat) : List String :=
  if arity = 1 then ["T"] else (List.range arity).map fun i => "T" ++ Nat.repr (i + 1)

def ofBuiltin (b : Builtin) : TypeDecl :=
  { name := b.metadataName, kind := if b.isValueType then .struct else .concreteClass }

def ofCollection (c : CollectionShape) : TypeDecl where
  name := c.name
  kind :=
    if CollectionShape.isInterfaceName c.name then .interface
    else if c.isValueType then .struct
    else .concreteClass
  generics := genericNames c.arity

def ofAttribute (name : String) : TypeDecl := { name, kind := .concreteClass }

def decls : List TypeDecl :=
  Builtin.all.map ofBuiltin ++ CollectionShape.all.map ofCollection ++
    AttributeName.all.map ofAttribute

end Prelude

end FormatterPlan
