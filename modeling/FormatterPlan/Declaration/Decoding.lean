import FormatterPlan.Declaration.Basic
import FormatterPlan.Json.Decoding
import FormatterPlan.Json.Reader

/-! Documents of declarations from JSON, read from a text or taken from a value. -/

namespace FormatterPlan

open Json

def DeclKind.variants : Variants DeclKind :=
  [("class", .concreteClass), ("record", .concreteClass), ("abstract_class", .abstractClass),
    ("record_struct", .struct), ("struct", .struct), ("interface", .interface),
    ("enum", .enumeration)]

def MemberKind.variants : Variants MemberKind :=
  [("field", .field), ("property", .property), ("method", .method)]

def Access.variants : Variants Access :=
  [("public", .everyone), ("internal", .assembly), ("protected", .family), ("private", .owner)]

/-- An argument of an attribute: an object with a single string under `typeof` is a type reference,
and everything else is a plain value. -/
def ArgumentDecl.ofBuffered (value : Value) : ArgumentDecl :=
  match value with
  | .object members =>
    match Value.soleMember "typeof" members with
    | some (some (.string expr)) => .typeOf expr
    | _ => .value value.settled
  | _ => .value value.settled

/-- An attribute: a string, or an object with a string under `type` and, if it likes, a list under
`args`, neither of them repeated. -/
def AttributeDecl.ofBuffered? : Value → Option AttributeDecl
  | .string name => some (.bare name)
  | .object members =>
    match Value.soleMember "type" members, Value.soleMember "args" members with
    | some (some (.string name)), some none => some (.full name [])
    | some (some (.string name)), some (some (.array args)) =>
      some (.full name (args.map ArgumentDecl.ofBuffered))
    | _, _ => none
  | _ => none

/-- An attribute as an item of a list; `closing` is the place where the reader stands after it. -/
def AttributeDecl.decode (path : Path) (source : Source) (closing : Option Position) :
    Except DecodeError AttributeDecl := do
  match AttributeDecl.ofBuffered? (← source.buffered path) with
  | some decl => .ok decl
  | none => .error ⟨path, .noAlternative "AttributeDoc", closing⟩

def MemberDecl.format : RecordFormat MemberDecl where
  title := "struct MemberDoc"
  fields := ["name", "type", "kind", "access", "static", "params", "attributes"]
  required := ["name"]
  start := { name := "" }
  put field path source decl :=
    match field with
    | "name" => do .ok { decl with name := ← source.asString path }
    | "type" => do .ok { decl with type := ← source.asOptionalString path }
    | "kind" => do .ok { decl with kind := ← MemberKind.variants.decode path source }
    | "access" => do .ok { decl with access := ← Access.variants.decode path source }
    | "static" => do .ok { decl with isStatic := ← source.asBool path }
    | "params" => do .ok { decl with params := ← source.asStrings path }
    | "attributes" => do .ok { decl with attributes := ← source.asList AttributeDecl.decode path }
    | _ => .ok decl

def TypeDecl.format : RecordFormat TypeDecl where
  title := "struct TypeDecl"
  fields := ["name", "kind", "generics", "base", "attributes", "members", "underlying"]
  required := ["name", "kind"]
  start := { name := "", kind := .concreteClass }
  put field path source decl :=
    match field with
    | "name" => do .ok { decl with name := ← source.asString path }
    | "kind" => do .ok { decl with kind := ← DeclKind.variants.decode path source }
    | "generics" => do .ok { decl with generics := ← source.asStrings path }
    | "base" => do .ok { decl with base := ← source.asOptionalString path }
    | "attributes" => do .ok { decl with attributes := ← source.asList AttributeDecl.decode path }
    | "members" => do
      .ok { decl with members := ← source.asList (fun p s _ => MemberDecl.format.decode p s) path }
    | "underlying" => do .ok { decl with underlying := ← source.asOptionalString path }
    | _ => .ok decl

def Document.format : RecordFormat Document where
  title := "struct UniverseDoc"
  fields := ["types"]
  required := ["types"]
  start := ⟨[]⟩
  put field path source document :=
    match field with
    | "types" => do .ok ⟨← source.asList (fun p s _ => TypeDecl.format.decode p s) path⟩
    | _ => .ok document

/-- The document that a source holds. -/
def Document.ofSource (source : Source) : Except DecodeError Document := format.decode [] source

/-- The document at the start of a text.  What follows it is not looked at. -/
def Document.ofText (text : String) : Except DecodeError Document :=
  ofSource (Source.read text).1

/-- The document that a value is. -/
def Document.ofValue (value : Value) : Except DecodeError Document :=
  ofSource (Source.ofValue value)

end FormatterPlan
