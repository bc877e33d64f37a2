import FormatterPlan.Assembly.Basic
import FormatterPlan.Assembly.NameTable

/-! Loading documents into an assembly.  All declarations, those of the prelude first, are known
before the first of them is resolved, so the order of documents does not decide what a name stands
for. -/

namespace FormatterPlan

/-- The names that a type may use: those of all declarations, and the parameters of the declaration
around it. -/
structure Scope where
  table : NameTable
  generics : List String

namespace Scope

def tupleName : String := "System.ValueTuple"

/-- The written name of the type around a value type that may be absent. -/
def nullableName : String := "System.Nullable"

/-- A type that may be absent.  Of all types only structures and enumerations need a type around
them for that. -/
def nullable (scope : Scope) (context : String) (inner : Ty) : Except LoadError Ty :=
  match inner with
  | .named symbol _ =>
    if scope.table.isValueType symbol then do
      .ok (.named (← scope.table.resolve context nullableName 1 false) [inner])
    else .ok inner
  | _ => .ok inner

mutual

/-- The type of an expression.  A name without arguments that is a parameter stands for that. -/
def resolve (scope : Scope) (context : String) : TypeExpr → Except LoadError Ty
  | .named name [] =>
    match scope.generics.idxOf? name with
    | some index => .ok (.param index name)
    | none => do .ok (.named (← scope.table.resolve context name 0 false) [])
  | .named name (arg :: args) => do
    let symbol ← scope.table.resolve context name (args.length + 1) false
    let first ← scope.resolve context arg
    .ok (.named symbol (first :: (← scope.resolveAll context args)))
  | .array element rank => do .ok (.array (← scope.resolve context element) rank)
  | .tuple elements => do
    let symbol ← scope.table.resolve context tupleName elements.length false
    .ok (.named symbol (← scope.resolveAll context elements))
  | .nullable inner => do scope.nullable context (← scope.resolve context inner)

def resolveAll (scope : Scope) (context : String) : List TypeExpr → Except LoadError (List Ty)
  | [] => .ok []
  | expr :: rest => do
    let first ← scope.resolve context expr
    .ok (first :: (← scope.resolveAll context rest))

end

def typeOf (scope : Scope) (context text : String) : Except LoadError Ty :=
  match TypeExpr.parse text with
  | .ok expr => scope.resolve context expr
  | .error fault => .error (.badType text context fault)

/-- An argument of an attribute: a type, an integer that fits 64 bits, a string, a truth value or
`null`. -/
def argumentOf (scope : Scope) (context : String) : ArgumentDecl → Except LoadError Argument
  | .typeOf expr => do .ok (.type (← scope.typeOf context expr))
  | .value .null => .ok .null
  | .value (.bool b) => .ok (.bool b)
  | .value (.string s) => .ok (.string s)
  | .value (.number n) =>
    match n.signed? with
    | some i => .ok (.int i)
    | none => .error (.badArgument context (.notAnInteger n))
  | .value other => .error (.badArgument context (.unsupported other))

/-- An attribute, whose class may be written without its ending. -/
def attributeOf (scope : Scope) (context : String) (decl : AttributeDecl) :
    Except LoadError Attribute := do
  let symbol ← scope.table.resolve context decl.className 0 true
  .ok ⟨symbol, ← decl.args.mapM (scope.argumentOf context)⟩

/-- The type of a member.  Only methods may have none. -/
def memberType (scope : Scope) (context : String) (decl : MemberDecl) :
    Except LoadError (Option Ty) :=
  match decl.type, decl.kind with
  | some text, _ => some <$> scope.typeOf context text
  | none, .method => .ok none
  | none, _ => .error (.untypedMember context)

def memberOf (scope : Scope) (owner : String) (decl : MemberDecl) : Except LoadError Member := do
  let context := owner ++ "." ++ decl.name
  let type ← scope.memberType context decl
  let params ← decl.params.mapM (scope.typeOf context)
  let attributes ← decl.attributes.mapM (scope.attributeOf context)
  .ok { name := decl.name, kind := decl.kind, type, params, access := decl.access,
        isStatic := decl.isStatic, attributes }

end Scope

/-- The written type of the values of an enumeration that does not say. -/
def defaultUnderlying : String := "int"

/-- A declaration, resolved against the names of all. -/
def NameTable.typeDef (table : NameTable) (decl : TypeDecl) : Except LoadError TypeDef := do
  let scope : Scope := ⟨table, decl.generics⟩
  let attributes ← decl.attributes.mapM (scope.attributeOf decl.name)
  let base ← decl.base.mapM (scope.typeOf decl.name)
  let members ← decl.members.mapM (scope.memberOf decl.name)
  let underlying ←
    if decl.kind = .enumeration then
      some <$> scope.typeOf decl.name (decl.underlying.getD defaultUnderlying)
    else .ok none
  .ok { name := decl.name, kind := decl.kind, generics := decl.generics, base, underlying,
        attributes, members }

/-- The assembly of declarations, the first `preludeSize` of which are not the user's. -/
def Assembly.build (preludeSize : Nat) (decls : List TypeDecl) : Except LoadError Assembly := do
  if let some decl := NameTable.firstRepeated? [] decls then
    .error (.repeatedType (metadataName decl.name decl.generics.length))
  let defs ← decls.mapM (NameTable.ofDecls decls).typeDef
  .ok ⟨defs.toArray, preludeSize⟩

/-- The assembly of declarations that follow those of the prelude. -/
def Assembly.ofDecls (userDecls : List TypeDecl) : Except LoadError Assembly :=
  build Prelude.decls.length (Prelude.decls ++ userDecls)

/-- The assembly of documents, whose declarations follow one another in order. -/
def Assembly.load (documents : List Document) : Except LoadError Assembly :=
  ofDecls (documents.flatMap (·.types))

end FormatterPlan
