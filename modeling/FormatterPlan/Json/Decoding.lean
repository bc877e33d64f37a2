import FormatterPlan.Json.Path
import FormatterPlan.Json.Source
import FormatterPlan.Text.Quoted

/-! Decoding of JSON into structured data: scalars, lists, choices between named variants, and
records, which are written as objects or as lists of their fields in order.  A decoder goes through
a source in the order of the text and stops at the first error. -/

namespace FormatterPlan.Json

/-- Why a source does not decode. -/
inductive DecodeCause where
  | fault (fault : Fault)
  | wrongType (got : String) (want : String)
  | wrongMap
  | wrongLength (length : Nat) (want : String)
  | unknownField (name : String) (fields : List String)
  | repeatedField (name : String)
  | missingField (name : String)
  | unknownVariant (name : String) (variants : List String)
  | noAlternative (title : String)

namespace DecodeCause

def marked (name : String) : String := "\x60" ++ name ++ "\x60"

/-- The names that a message offers. -/
def offered : List String → String
  | [a, b] => marked a ++ " or " ++ marked b
  | [a] => marked a
  | names => "one of " ++ ", ".intercalate (names.map marked)

def message : DecodeCause → String
  | .fault f => f.message
  | .wrongType got want => "invalid type: " ++ got ++ ", expected " ++ want
  | .wrongMap => "invalid value: map, expected map with a single key"
  | .wrongLength length want => "invalid length " ++ Nat.repr length ++ ", expected " ++ want
  | .unknownField name fields =>
    "unknown field " ++ marked name ++ ", expected " ++ offered fields
  | .repeatedField name => "duplicate field " ++ marked name
  | .missingField name => "missing field " ++ marked name
  | .unknownVariant name variants =>
    "unknown variant " ++ marked name ++ ", expected " ++ offered variants
  | .noAlternative title => "data did not match any variant of untagged enum " ++ title

end DecodeCause

/-- An error of decoding: the path to the part at fault, what is wrong, and where the text holds
it. -/
structure DecodeError where
  path : Path
  cause : DecodeCause
  place : Option Position

def DecodeError.message (e : DecodeError) : String :=
  "at JSON path " ++ e.path.text ++ " → " ++ e.cause.message ++ Position.suffix e.place

/-- A fault of the text, met on the way to `path`. -/
def DecodeError.ofFault (path : Path) (fault : FaultAt) : DecodeError :=
  ⟨path, .fault fault.fault, fault.place⟩

/-- A scalar as messages name it. -/
def Scalar.described : Scalar → String
  | .null => "null"
  | .bool true => "boolean " ++ DecodeCause.marked "true"
  | .bool false => "boolean " ++ DecodeCause.marked "false"
  | .number (.integer value) => "integer " ++ DecodeCause.marked (Number.integer value).text
  | .number n => "floating point " ++ DecodeCause.marked n.text
  | .string s => "string " ++ Text.quoted s

namespace Source

/-- The error of a source that is not of the kind `want`. -/
def mismatch (path : Path) (want : String) : Source → DecodeError
  | .scalar _ value stop => ⟨path, .wrongType value.described want, stop⟩
  | .array start _ => ⟨path, .wrongType "sequence" want, start⟩
  | .object start _ => ⟨path, .wrongType "map" want, start⟩
  | .broken _ fault => .ofFault path fault

def asString (path : Path) : Source → Except DecodeError String
  | .scalar _ (.string s) _ => .ok s
  | source => .error (source.mismatch path "a string")

def asBool (path : Path) : Source → Except DecodeError Bool
  | .scalar _ (.bool b) _ => .ok b
  | source => .error (source.mismatch path "a boolean")

def asOptionalString (path : Path) : Source → Except DecodeError (Option String)
  | .scalar _ .null _ => .ok none
  | source => some <$> source.asString path

end Source

/-- Decodes items one by one.  The decoder of an item gets the place where the reader stands after
an attempt to close the list behind the item. -/
def Items.decode {α : Type} (path : Path)
    (item : Path → Source → Option Position → Except DecodeError α) :
    (index : Nat) → Items → Except DecodeError (List α)
  | _, .stop (.closed _) => .ok []
  | _, .stop (.fault fault) => .error (.ofFault path fault)
  | index, .item value closing rest => do
    let first ← item (path ++ [.index index]) value closing.place
    .ok (first :: (← rest.decode path item (index + 1)))

def Source.asList {α : Type} (item : Path → Source → Option Position → Except DecodeError α)
    (path : Path) : Source → Except DecodeError (List α)
  | .array _ items => items.decode path item 0
  | source => .error (source.mismatch path "a sequence")

def Source.asStrings : Path → Source → Except DecodeError (List String) :=
  asList fun path source _ => source.asString path

/-- The names of a choice and what they stand for, in the order in which messages offer them. -/
abbrev Variants (α : Type) := List (String × α)

namespace Variants

variable {α : Type}

/-- What a name stands for; `place` is the place after the name. -/
def choose (variants : Variants α) (path : Path) (name : String) (place : Option Position) :
    Except DecodeError α :=
  match variants.lookup name with
  | some variant => .ok variant
  | none => .error ⟨path, .unknownVariant name (variants.map (·.1)), place⟩

/-- The payload of a variant without data. -/
def noPayload (path : Path) : Source → Except DecodeError Unit
  | .scalar _ .null _ => .ok ()
  | source => .error (source.mismatch path "unit")

/-- The variant of an object that no text holds: its only key. -/
def ofValueMembers (variants : Variants α) (path : Path) : Members → Except DecodeError α
  | .member key value _ (.stop _) => do
    let variant ← variants.choose path key.name none
    noPayload (path ++ [.key key.name]) value
    .ok variant
  | _ => .error ⟨path, .wrongMap, none⟩

/-- The variant of an object of a text: its first key, after which it has to end. -/
def ofTextMembers (variants : Variants α) (path : Path) : Members → Except DecodeError α
  | .stop (.closed place) => .error ⟨path, .fault .noValue, place⟩
  | .stop (.fault fault) => .error (.ofFault path fault)
  | .noColon key fault => do
    let _ ← variants.choose path key.name key.stop
    .error (.ofFault path fault)
  | .member key value unended _ => do
    let variant ← variants.choose path key.name key.stop
    noPayload (path ++ [.key key.name]) value
    if let some fault := unended then .error (.ofFault path fault)
    .ok variant

/-- The error of a source that holds no variant.  In a text only the start of a value counts. -/
def notAVariant (path : Path) (start : Option Position) (source : Source) : DecodeError :=
  match start with
  | some p => ⟨path, .fault .noValue, some ⟨p.line, p.column + 1⟩⟩
  | none => source.mismatch path "string or map"

/-- A choice: the name of a variant, or an object with that name as its only key and `null` under
it. -/
def decode (variants : Variants α) (path : Path) : Source → Except DecodeError α
  | .scalar _ (.string name) stop => variants.choose path name stop
  | .object none members => variants.ofValueMembers path members
  | .object (some _) members => variants.ofTextMembers path members
  | source@(.scalar start _ _) => .error (notAVariant path start source)
  | source@(.array start _) => .error (notAVariant path start source)
  | source@(.broken start _) => .error (notAVariant path start source)

end Variants

/-- How a record decodes: its fields in order, with the ones that may not be absent, a record on
which no field is set, and the decoder of each field. -/
structure RecordFormat (σ : Type) where
  title : String
  fields : List String
  required : List String
  start : σ
  put : (field : String) → Path → Source → σ → Except DecodeError σ

namespace RecordFormat

variable {σ : Type}

/-- Refuses a key that is no field, or one of the fields that are set. -/
def checkKey (format : RecordFormat σ) (path : Path) (seen : List String) (key : Key) :
    Except DecodeError Unit :=
  if !format.fields.contains key.name then
    .error ⟨path ++ [.key key.name], .unknownField key.name format.fields, key.closing⟩
  else if seen.contains key.name then .error ⟨path, .repeatedField key.name, key.closing⟩
  else .ok ()

/-- The members of a record; `seen` are the fields that are set. -/
def ofMembers (format : RecordFormat σ) (path : Path) :
    (seen : List String) → σ → Members → Except DecodeError σ
  | seen, record, .stop (.closed place) =>
    match format.required.find? (!seen.contains ·) with
    | some field => .error ⟨path, .missingField field, place⟩
    | none => .ok record
  | _, _, .stop (.fault fault) => .error (.ofFault (path ++ [.unknown]) fault)
  | seen, _, .noColon key fault => do
    format.checkKey path seen key
    .error (.ofFault path fault)
  | seen, record, .member key value _ rest => do
    format.checkKey path seen key
    let record ← format.put key.name (path ++ [.key key.name]) value record
    format.ofMembers path (key.name :: seen) record rest

/-- The number of items of a list as far as it was read. -/
def itemCount : Items → Nat
  | .stop _ => 0
  | .item _ _ rest => itemCount rest + 1

/-- What a list that has more items than a record has fields is expected to be. -/
def wantedFields (format : RecordFormat σ) : String :=
  format.title ++ " with " ++ Nat.repr format.fields.length ++
    (if format.fields.length = 1 then " element" else " elements")

/-- The end of a record that is written as a list, all of whose fields are set. -/
def endOfItems (path : Path) (count : Nat) (closing : Closing) (rest : Items) (record : σ) :
    Except DecodeError σ :=
  match closing.fault, itemCount rest with
  | some fault, _ => .error (.ofFault path fault)
  | none, 0 => .ok record
  | none, more => .error ⟨path, .wrongLength (count + more) "fewer elements in array", none⟩

/-- The items of a record that is written as a list; `index` of them stand for the fields before
`fields`. -/
def ofItems (format : RecordFormat σ) (path : Path) :
    (index : Nat) → (fields : List String) → σ → Items → Except DecodeError σ
  | _, [], record, _ => .ok record
  | index, field :: fields, record, .stop (.closed place) =>
    if (field :: fields).any format.required.contains then
      .error ⟨path, .wrongLength index format.wantedFields, place⟩
    else .ok record
  | _, _ :: _, _, .stop (.fault fault) => .error (.ofFault path fault)
  | index, field :: fields, record, .item value closing rest => do
    let record ← format.put field (path ++ [.index index]) value record
    if fields.isEmpty then endOfItems path (index + 1) closing rest record
    else format.ofItems path (index + 1) fields record rest

def decode (format : RecordFormat σ) (path : Path) : Source → Except DecodeError σ
  | .object _ members => format.ofMembers path [] format.start members
  | .array _ items => format.ofItems path 0 format.fields format.start items
  | source => .error (source.mismatch path format.title)

end RecordFormat

mutual

/-- A source as a value in which objects keep repeated members, for a reader that has to see all of
it before it can decide. -/
def Source.buffered (path : Path) : Source → Except DecodeError Value
  | .scalar _ s _ => .ok s.value
  | .array _ items => do .ok (.array (← items.buffered path 0))
  | .object _ members => do .ok (.object (← members.buffered path))
  | .broken _ fault => .error (.ofFault path fault)

/-- The items of a list as values. -/
def Items.buffered (path : Path) : (index : Nat) → Items → Except DecodeError (List Value)
  | _, .stop (.closed _) => .ok []
  | _, .stop (.fault fault) => .error (.ofFault path fault)
  | index, .item value _ rest => do
    let first ← value.buffered (path ++ [.index index])
    .ok (first :: (← rest.buffered path (index + 1)))

/-- The members of an object as values, repeated ones included. -/
def Members.buffered (path : Path) : Members → Except DecodeError (List (String × Value))
  | .stop (.closed _) => .ok []
  | .stop (.fault fault) => .error (.ofFault (path ++ [.unknown]) fault)
  | .noColon _ fault => .error (.ofFault path fault)
  | .member key value _ rest => do
    let first ← value.buffered (path ++ [.key key.name])
    .ok ((key.name, first) :: (← rest.buffered path))

end

namespace Value

mutual

/-- The value in which each object keeps of repeated members the place of the first and the value of
the last. -/
def settled : Value → Value
  | .array items => .array (settledItems items)
  | .object members => .object (ofMembers (settledMembers members))
  | v => v

def settledItems : List Value → List Value
  | [] => []
  | v :: rest => settled v :: settledItems rest

def settledMembers : List (String × Value) → List (String × Value)
  | [] => []
  | (k, v) :: rest => (k, settled v) :: settledMembers rest

end

/-- The value of the member under a key.  The outer result is `none` if the key is repeated, the
inner one if it is absent. -/
def soleMember (key : String) (members : List (String × Value)) : Option (Option Value) :=
  match members.filter (·.1 == key) with
  | [] => some none
  | [(_, value)] => some (some value)
  | _ => none

end Value

end FormatterPlan.Json
