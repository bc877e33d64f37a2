import FormatterPlan.Json.Numeral
import FormatterPlan.Json.Source
import FormatterPlan.Json.StringLiteral

/-! Reading JSON from a text.  Values nest at most 127 lists and objects deep.  The result is a tree
that ends where reading fails. -/

namespace FormatterPlan.Json

/-- Lists and objects may stand inside fewer than this many others. -/
def maxDepth : Nat := 128

/-- The cursor past the letters of a word. -/
def readWord (cursor : Cursor) : List Char → Except FaultAt Cursor
  | [] => .ok cursor
  | letter :: word =>
    match cursor.rest with
    | [] => .error (cursor.faultHere .endInValue)
    | c :: rest =>
      if c = letter then readWord (cursor.past c rest) word else .error (cursor.faultAhead .noWord)

/-- A source, and the cursor after it unless a fault ends it. -/
abbrev Reading (α : Type) := α × Option Cursor

/-- A value that could not be read. -/
def Reading.broken (start : Option Position) (fault : FaultAt) : Reading Source :=
  (.broken start fault, none)

/-- A scalar that starts at the cursor. -/
def Reading.scalar (cursor : Cursor) (value : Scalar) (stop : Cursor) : Reading Source :=
  (.scalar (some cursor.position) value (some stop.position), some stop)

/-- The word `null`, `true` or `false`, whose value is known from its first letter. -/
def readLiteral (cursor : Cursor) (word : String) (value : Scalar) : Reading Source :=
  match readWord cursor word.toList with
  | .ok stop => .scalar cursor value stop
  | .error fault => .broken (some cursor.position) fault

/-- The value at the cursor, which is not white space and starts neither a list nor an object. -/
def readScalar (cursor : Cursor) : Reading Source :=
  let start := some cursor.position
  match cursor.rest with
  | [] => .broken none (cursor.faultHere .endInValue)
  | 'n' :: _ => readLiteral cursor "null" .null
  | 't' :: _ => readLiteral cursor "true" (.bool true)
  | 'f' :: _ => readLiteral cursor "false" (.bool false)
  | '"' :: rest =>
    match readString (cursor.past '"' rest) with
    | .ok (s, stop) => .scalar cursor (.string s) stop
    | .error fault => .broken none fault
  | c :: _ =>
    if c = '-' ∨ c.isDigit then
      match readNumeral cursor with
      | (.ok n, stop) => .scalar cursor (.number n) stop
      | (.error fault, _) => .broken start fault
    else .broken start (cursor.faultAhead .noValue)

/-- What an attempt to close a list at the cursor comes to. -/
def closeList (cursor : Cursor) : Closing :=
  let cursor := cursor.skipBlank
  match cursor.rest with
  | [] => ⟨some cursor.position, some (cursor.faultHere .endInList)⟩
  | ']' :: rest => ⟨some (cursor.past ']' rest).position, none⟩
  | ',' :: rest =>
    let next := (cursor.past ',' rest).skipBlank
    let fault := match next.rest with
      | ']' :: _ => Fault.trailingComma
      | _ => Fault.trailingText
    ⟨some next.position, some (next.faultAhead fault)⟩
  | _ => ⟨some cursor.position, some (cursor.faultAhead .trailingText)⟩

/-- Where an attempt to close an object at the cursor leaves the reader. -/
def closeObject (cursor : Cursor) : Position :=
  let cursor := cursor.skipBlank
  match cursor.rest with
  | '}' :: rest => (cursor.past '}' rest).position
  | _ => cursor.position

/-- The fault of an object that has to end at the cursor and does not. -/
def unended (cursor : Cursor) : Option FaultAt :=
  let cursor := cursor.skipBlank
  match cursor.rest with
  | [] => some (cursor.faultHere .endInObject)
  | '}' :: _ => none
  | _ => some (cursor.faultHere .noValue)

/-- The start of the next item of a list, or how the list ends here. -/
def nextItem (first : Bool) (cursor : Cursor) : Except Ending Cursor × Option Cursor :=
  let cursor := cursor.skipBlank
  match cursor.rest with
  | [] => (.error (.fault (cursor.faultHere .endInList)), none)
  | ']' :: rest =>
    let stop := cursor.past ']' rest
    (.error (.closed (some stop.position)), some stop)
  | c :: rest =>
    if first then (.ok cursor, none)
    else if c = ',' then
      let next := (cursor.past ',' rest).skipBlank
      match next.rest with
      | [] => (.error (.fault (next.faultHere .endInValue)), none)
      | ']' :: _ => (.error (.fault (next.faultAhead .trailingComma)), none)
      | _ => (.ok next, none)
    else (.error (.fault (cursor.faultAhead .noListEnd)), none)

/-- The cursor past the quotation mark that a key starts with. -/
def keyMark (cursor : Cursor) : Except Ending Cursor :=
  match cursor.rest with
  | [] => .error (.fault (cursor.faultHere .endInValue))
  | '"' :: rest => .ok (cursor.past '"' rest)
  | '}' :: _ => .error (.fault (cursor.faultAhead .trailingComma))
  | _ => .error (.fault (cursor.faultAhead .keyNotString))

/-- The start of the next key of an object, past its quotation mark, or how the object ends here. -/
def nextKey (first : Bool) (cursor : Cursor) : Except Ending Cursor × Option Cursor :=
  let cursor := cursor.skipBlank
  match cursor.rest with
  | [] => (.error (.fault (cursor.faultHere .endInObject)), none)
  | '}' :: rest =>
    let stop := cursor.past '}' rest
    (.error (.closed (some stop.position)), some stop)
  | c :: rest =>
    if first then (keyMark cursor, none)
    else if c = ',' then (keyMark (cursor.past ',' rest).skipBlank, none)
    else (.error (.fault (cursor.faultAhead .noObjectEnd)), none)

def colon (cursor : Cursor) : Except FaultAt Cursor :=
  let cursor := cursor.skipBlank
  match cursor.rest with
  | [] => .error (cursor.faultHere .endInObject)
  | ':' :: rest => .ok (cursor.past ':' rest)
  | _ => .error (cursor.faultAhead .noColon)

mutual

/-- The value at the cursor, inside `maxDepth - room` lists and objects.  Every call passes a
character or goes from a list or object to its part, so `steps` above twice the characters left does
not run out. -/
def readValue : (steps : Nat) → (room : Nat) → Cursor → Reading Source
  | 0, _, cursor => .broken none (cursor.faultHere .endInValue)
  | steps + 1, room, cursor =>
    let cursor := cursor.skipBlank
    let start := some cursor.position
    match cursor.rest, room with
    | '[' :: rest, room + 2 =>
      let (items, stop) := readItems steps (room + 1) true (cursor.past '[' rest)
      (.array start items, stop)
    | '[' :: _, _ => .broken start (cursor.faultAhead .tooDeep)
    | '{' :: rest, room + 2 =>
      let (members, stop) := readMembers steps (room + 1) true (cursor.past '{' rest)
      (.object start members, stop)
    | '{' :: _, _ => .broken none (cursor.faultAhead .tooDeep)
    | _, _ => readScalar cursor

/-- The items of a list from the cursor on; `first` says that none has been read. -/
def readItems : (steps : Nat) → (room : Nat) → (first : Bool) → Cursor → Reading Items
  | 0, _, _, cursor => (.stop (.fault (cursor.faultHere .endInList)), none)
  | steps + 1, room, first, cursor =>
    match nextItem first cursor with
    | (.error ending, stop) => (.stop ending, stop)
    | (.ok start, _) =>
      match readValue steps room start with
      | (value, some stop) =>
        let (rest, stop') := readItems steps room false stop
        (.item value (closeList stop) rest, stop')
      | (value, none) =>
        (.item value ⟨none, none⟩ (.stop (.fault (start.faultHere .endInList))), none)

/-- The members of an object from the cursor on; `first` says that none has been read. -/
def readMembers : (steps : Nat) → (room : Nat) → (first : Bool) → Cursor → Reading Members
  | 0, _, _, cursor => (.stop (.fault (cursor.faultHere .endInObject)), none)
  | steps + 1, room, first, cursor =>
    match nextKey first cursor with
    | (.error ending, stop) => (.stop ending, stop)
    | (.ok start, _) =>
      match readString start with
      | .error fault => (.stop (.fault fault), none)
      | .ok (name, stop) =>
        let key : Key := ⟨name, some stop.position, some (closeObject stop)⟩
        match colon stop with
        | .error fault => (.noColon key fault, none)
        | .ok after =>
          match readValue steps room after with
          | (value, some stop) =>
            let (rest, stop') := readMembers steps room false stop
            (.member key value (unended stop) rest, stop')
          | (value, none) =>
            (.member key value none (.stop (.fault (start.faultHere .endInObject))), none)

end

/-- The value that a text starts with, and the cursor after it. -/
def Source.read (text : String) : Reading Source :=
  let cursor := Cursor.ofText text
  readValue (2 * cursor.rest.length + 2) maxDepth cursor

/-- The value that a text is, with nothing but white space after it. -/
def Value.parse (text : String) : Except FaultAt Value :=
  match Source.read text with
  | (source, none) => source.value
  | (source, some stop) => do
    let value ← source.value
    let stop := stop.skipBlank
    if stop.rest.isEmpty then .ok value else .error (stop.faultAhead .trailingText)

end FormatterPlan.Json
