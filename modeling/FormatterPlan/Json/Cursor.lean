import FormatterPlan.Json.Fault

/-! The part of a text that is still to be read, and the place where it starts. -/

namespace FormatterPlan.Json

/-- The rest of a text and its place. -/
structure Cursor where
  rest : List Char
  position : Position

namespace Cursor

def ofText (text : String) : Cursor := ⟨text.toList, ⟨1, 0⟩⟩

def after (p : Position) (c : Char) : Position :=
  if c = '\n' then ⟨p.line + 1, 0⟩ else ⟨p.line, p.column + c.utf8Size⟩

/-- The cursor after a character that the text starts with. -/
def past (cursor : Cursor) (c : Char) (rest : List Char) : Cursor :=
  ⟨rest, after cursor.position c⟩

/-- The place after the first byte of the rest, or the end of the text. -/
def peekPosition (cursor : Cursor) : Position :=
  match cursor.rest with
  | [] => cursor.position
  | c :: _ => if c = '\n' then ⟨cursor.position.line + 1, 0⟩
      else ⟨cursor.position.line, cursor.position.column + 1⟩

/-- The place after four bytes, if the rest has as many. -/
def fourBytesOn : (bytes : Nat) → Position → List Char → Option Position
  | 0, p, _ => some p
  | _ + 1, _, [] => none
  | bytes + 1, p, c :: rest =>
    if c.utf8Size ≤ bytes + 1 then fourBytesOn (bytes + 1 - c.utf8Size) (after p c) rest
    else some ⟨p.line, p.column + (bytes + 1)⟩
termination_by _ _ cs => cs.length

/-- White space between the tokens of JSON. -/
def isBlank (c : Char) : Bool := c == ' ' || c == '\n' || c == '\t' || c == '\r'

/-- Passes the characters at the start of `cs` that satisfy `p`. -/
def passWhile (p : Char → Bool) (position : Position) : List Char → Cursor
  | [] => ⟨[], position⟩
  | c :: cs => if p c then passWhile p (after position c) cs else ⟨c :: cs, position⟩

def skipBlank (cursor : Cursor) : Cursor := passWhile isBlank cursor.position cursor.rest

/-- A fault at the place of the cursor. -/
def faultHere (cursor : Cursor) (fault : Fault) : FaultAt := ⟨fault, some cursor.position⟩

/-- A fault at the first character of the rest. -/
def faultAhead (cursor : Cursor) (fault : Fault) : FaultAt := ⟨fault, some cursor.peekPosition⟩

end Cursor

end FormatterPlan.Json
