import FormatterPlan.Json.Cursor

/-! Strings of JSON between their quotation marks.  A character beyond the basic plane is escaped as
two surrogates, and a surrogate that stands alone is a fault. -/

namespace FormatterPlan.Json

def hexValue? (c : Char) : Option Nat :=
  if c.isDigit then some (c.toNat - '0'.toNat)
  else if 'a' ≤ c ∧ c ≤ 'f' then some (c.toNat - 'a'.toNat + 10)
  else if 'A' ≤ c ∧ c ≤ 'F' then some (c.toNat - 'A'.toNat + 10)
  else none

/-- The number of four hexadecimal digits. -/
def hexValue4? (a b c d : Char) : Option Nat := do
  return 4096 * (← hexValue? a) + 256 * (← hexValue? b) + 16 * (← hexValue? c) + (← hexValue? d)

/-- The four hexadecimal digits at the start of the text.  If they are not there, the four bytes in
their place are passed all the same. -/
def readHex4 (cursor : Cursor) : Except FaultAt (Nat × Cursor) :=
  match Cursor.fourBytesOn 4 cursor.position cursor.rest with
  | none =>
    .error ((Cursor.passWhile (fun _ => true) cursor.position cursor.rest).faultHere .endInString)
  | some stop =>
    match cursor.rest with
    | a :: b :: c :: d :: rest =>
      match hexValue4? a b c d with
      | some n => .ok (n, ⟨rest, stop⟩)
      | none => .error ⟨.badEscape, some stop⟩
    | _ => .error ⟨.badEscape, some stop⟩

/-- The cursor past one character, which has to be `c`. -/
def expectSurrogateMark (c : Char) (cursor : Cursor) : Except FaultAt Cursor :=
  match cursor.rest with
  | [] => .error (cursor.faultHere .endInString)
  | next :: rest =>
    if next = c then .ok (cursor.past c rest) else .error (cursor.faultAhead .strayLeadingSurrogate)

/-- The character of a `u` escape whose mark the cursor is past. -/
def readUnicodeEscape (cursor : Cursor) : Except FaultAt (Char × Cursor) := do
  let (n, stop) ← readHex4 cursor
  if 0xDC00 ≤ n ∧ n ≤ 0xDFFF then .error (stop.faultHere .strayTrailingSurrogate)
  else if 0xD800 ≤ n ∧ n ≤ 0xDBFF then
    let mark ← expectSurrogateMark '\\' stop
    let second ← expectSurrogateMark 'u' mark
    let (low, stop) ← readHex4 second
    if 0xDC00 ≤ low ∧ low ≤ 0xDFFF then
      .ok (Char.ofNat (0x10000 + (n - 0xD800) * 1024 + (low - 0xDC00)), stop)
    else .error (stop.faultHere .strayTrailingSurrogate)
  else .ok (Char.ofNat n, stop)

/-- The character of an escape whose backslash the cursor is past. -/
def readEscape (cursor : Cursor) : Except FaultAt (Char × Cursor) :=
  match cursor.rest with
  | [] => .error (cursor.faultHere .endInString)
  | c :: rest =>
    let stop := cursor.past c rest
    if c = 'u' then readUnicodeEscape stop
    else if c = '"' ∨ c = '\\' ∨ c = '/' then .ok (c, stop)
    else if c = 'b' then .ok ('\x08', stop)
    else if c = 'f' then .ok ('\x0c', stop)
    else if c = 'n' then .ok ('\n', stop)
    else if c = 'r' then .ok ('\r', stop)
    else if c = 't' then .ok ('\t', stop)
    else .error (cursor.faultAhead .badEscape)

/-- The characters up to the closing quotation mark, after those read so far, last one first.  Each
step passes a character, so the number of characters left bounds the steps. -/
def readCharacters : (steps : Nat) → (read : List Char) → Cursor → Except FaultAt (String × Cursor)
  | 0, _, cursor => .error (cursor.faultHere .endInString)
  | steps + 1, read, cursor =>
    match cursor.rest with
    | [] => .error (cursor.faultHere .endInString)
    | c :: rest =>
      if c = '"' then .ok (String.ofList read.reverse, cursor.past c rest)
      else if c = '\\' then
        match readEscape (cursor.past c rest) with
        | .ok (escaped, stop) => readCharacters steps (escaped :: read) stop
        | .error fault => .error fault
      else if c.toNat < 0x20 then .error (cursor.faultAhead .controlCharacter)
      else readCharacters steps (c :: read) (cursor.past c rest)

/-- The string whose opening quotation mark the cursor is past. -/
def readString (cursor : Cursor) : Except FaultAt (String × Cursor) :=
  readCharacters cursor.rest.length [] cursor

end FormatterPlan.Json
