import FormatterPlan.Assembly.LoadError
import FormatterPlan.Catalog.Prelude
import FormatterPlan.Ty

/-! Resolution of names.  A written name and a number of arguments stand for the declaration with
this full name and arity, or else for the only one whose last segment it is.  Keywords stand for
fixed types, and the name of an attribute may leave out its ending. -/

namespace FormatterPlan

/-- What resolution has to know about a declaration. -/
structure NameEntry where
  symbol : Symbol
  name : String
  simpleName : String
  arity : Nat
  kind : DeclKind

/-- The declarations of an assembly by their names, in order. -/
abbrev NameTable := List NameEntry

namespace NameTable

/-- The entry of a declaration at a position. -/
def entryOf (decl : TypeDecl) (index : Nat) : NameEntry :=
  ⟨⟨index⟩, decl.name, Text.lastSegment decl.name, decl.generics.length, decl.kind⟩

def ofDecls (decls : List TypeDecl) : NameTable :=
  decls.zipIdx.map fun (decl, index) => entryOf decl index

/-- The first declaration whose full name and arity occur before it. -/
def firstRepeated? : (seen : List (String × Nat)) → List TypeDecl → Option TypeDecl
  | _, [] => none
  | seen, decl :: rest =>
    if seen.contains (decl.name, decl.generics.length) then some decl
    else firstRepeated? ((decl.name, decl.generics.length) :: seen) rest

/-- The declaration with a full name and an arity. -/
def byFullName? (table : NameTable) (name : String) (arity : Nat) : Option NameEntry :=
  table.find? fun e => e.arity == arity && e.name == name

/-- The declarations with a last segment and an arity. -/
def bySimpleName (table : NameTable) (name : String) (arity : Nat) : List NameEntry :=
  table.filter fun e => e.arity == arity && e.simpleName == name

/-- The ending that the name of an attribute class may leave out. -/
def attributeEnding : String := "Attribute"

/-- The names that a written name may stand for, first choice first. -/
def candidates (name : String) (arity : Nat) (isAttribute : Bool) : List String :=
  (if arity = 0 then (keywordAliases.lookup name).toList else []) ++ [name] ++
    (if isAttribute && !attributeEnding.toList.isSuffixOf name.toList then [name ++ attributeEnding]
    else [])

/-- What a single candidate stands for: a symbol, several declarations with that last segment, or
nothing. -/
def resolveCandidate (table : NameTable) (candidate : String) (arity : Nat) :
    Option (Except (List String) Symbol) :=
  match table.byFullName? candidate arity with
  | some entry => some (.ok entry.symbol)
  | none =>
    match table.bySimpleName candidate arity with
    | [] => none
    | [only] => some (.ok only.symbol)
    | several => some (.error (several.map (·.name)))

/-- The symbol of a written name with a number of arguments. -/
def resolve (table : NameTable) (context name : String) (arity : Nat) (isAttribute : Bool) :
    Except LoadError Symbol :=
  match (candidates name arity isAttribute).findSome? (table.resolveCandidate · arity) with
  | some (.ok symbol) => .ok symbol
  | some (.error several) => .error (.ambiguousType name context several)
  | none => .error (.unknownType name context)

def isValueType (table : NameTable) (symbol : Symbol) : Bool :=
  match table[symbol.index]? with
  | some entry => entry.kind.isValueType
  | none => false

end NameTable

end FormatterPlan
