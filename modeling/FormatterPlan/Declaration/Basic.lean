import FormatterPlan.Json.Value

/-! Declarations as a document writes them.  Types and attributes are still texts. -/

namespace FormatterPlan

/-- The kinds of declared types.  Records count as classes and record structures as structures. -/
inductive DeclKind where
  | concreteClass
  | abstractClass
  | struct
  | interface
  | enumeration
deriving DecidableEq

def DeclKind.isValueType : DeclKind → Bool
  | .struct | .enumeration => true
  | _ => false

inductive MemberKind where
  | field
  | property
  | method
deriving DecidableEq

inductive Access where
  | everyone
  | assembly
  | family
  | owner
deriving DecidableEq

/-- A written argument of an attribute: a type reference or a plain value. -/
inductive ArgumentDecl where
  | typeOf (expr : String)
  | value (value : Json.Value)

/-- A written attribute: the name of its class alone, or with arguments. -/
inductive AttributeDecl where
  | bare (name : String)
  | full (name : String) (args : List ArgumentDecl)

namespace AttributeDecl

def className : AttributeDecl → String
  | .bare name => name
  | .full name _ => name

def args : AttributeDecl → List ArgumentDecl
  | .bare _ => []
  | .full _ args => args

end AttributeDecl

/-- A written member.  `type` is the type of a field or property and the result type of a method. -/
structure MemberDecl where
  name : String
  type : Option String := none
  kind : MemberKind := .property
  access : Access := .everyone
  isStatic : Bool := false
  params : List String := []
  attributes : List AttributeDecl := []

/-- A written declaration of a type.  `underlying` is the type of an enumeration's values. -/
structure TypeDecl where
  name : String
  kind : DeclKind
  generics : List String := []
  base : Option String := none
  attributes : List AttributeDecl := []
  members : List MemberDecl := []
  underlying : Option String := none

structure Document where
  types : List TypeDecl

end FormatterPlan
