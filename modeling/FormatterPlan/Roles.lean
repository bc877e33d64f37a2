import FormatterPlan.Assembly.Basic
import FormatterPlan.Catalog.Prelude

/-! The roles that symbols play: which of them are the attributes that steer serialization, which
have fixed formatters, and which are collections.  They are looked up once for an analysis. -/

namespace FormatterPlan

/-- The symbols with a role.  All attributes but the one that marks objects may be missing. -/
structure Roles where
  object : Symbol
  key : Option Symbol
  ignoreMember : Option Symbol
  ignoreDataMember : Option Symbol
  union : Option Symbol
  formatter : Option Symbol
  builtins : List (Symbol × Builtin)
  collections : List (Symbol × CollectionShape)
  byte : Option Symbol

namespace Roles

/-- The roles that `resolve` gives out by metadata name; none at all without the attribute that
marks objects. -/
def of? (resolve : String → Option Symbol) : Option Roles := do
  let object ← resolve AttributeName.object
  return {
    object
    key := resolve AttributeName.key
    ignoreMember := resolve AttributeName.ignoreMember
    ignoreDataMember := resolve AttributeName.ignoreDataMember
    union := resolve AttributeName.union
    formatter := resolve AttributeName.formatter
    builtins := Builtin.all.filterMap fun b => (resolve b.metadataName).map (·, b)
    collections := CollectionShape.all.filterMap fun c => (resolve c.metadataName).map (·, c)
    byte := resolve Builtin.byteName }

/-- The roles in an assembly some of whose metadata names are hidden. -/
def ofAssembly? (asm : Assembly) (hidden : List String) : Option Roles :=
  of? fun name => if hidden.contains name then none else asm.byMetadataName? name

def builtin? (roles : Roles) (symbol : Symbol) : Option Builtin := roles.builtins.lookup symbol

def collection? (roles : Roles) (symbol : Symbol) : Option CollectionShape :=
  roles.collections.lookup symbol

def isByte (roles : Roles) (symbol : Symbol) : Bool := roles.byte == some symbol

/-- The attributes of a class that may be missing. -/
def findAll (role : Option Symbol) (attributes : List Attribute) : List Attribute :=
  attributes.filter fun a => some a.symbol == role

/-- The first attribute of a class that may be missing. -/
def find? (role : Option Symbol) (attributes : List Attribute) : Option Attribute :=
  attributes.find? fun a => some a.symbol == role

/-- Whether attributes keep a member from being written. -/
def isIgnored (roles : Roles) (attributes : List Attribute) : Bool :=
  (find? roles.ignoreMember attributes).isSome || (find? roles.ignoreDataMember attributes).isSome

/-- The attribute that marks an object. -/
def objectAttribute? (roles : Roles) (attributes : List Attribute) : Option Attribute :=
  find? (some roles.object) attributes

end Roles

end FormatterPlan
