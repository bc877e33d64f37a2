import FormatterPlan.Json.Value

/-! The text of a JSON value: compact, without any white space, or indented by two spaces a level
with each item and member on a line of its own.  Strings escape the quotation mark, the backslash
and the control characters, and nothing else. -/

namespace FormatterPlan.Json

/-- The lower-case hexadecimal digit of a number below 16. -/
def hexDigit (n : Nat) : Char := "0123456789abcdef".toList.getD n '0'

/-- A character as it stands between quotation marks. -/
def escaped (c : Char) : List Char :=
  if c = '"' then ['\\', '"']
  else if c = '\\' then ['\\', '\\']
  else if c = '\n' then ['\\', 'n']
  else if c = '\r' then ['\\', 'r']
  else if c = '\t' then ['\\', 't']
  else if c = '\x08' then ['\\', 'b']
  else if c = '\x0c' then ['\\', 'f']
  else if c.toNat < 0x20 then
    ['\\', 'u', '0', '0', hexDigit (c.toNat / 16), hexDigit (c.toNat % 16)]
  else [c]

def quoted (s : String) : String := "\"" ++ String.ofList (s.toList.flatMap escaped) ++ "\""

namespace Value

mutual

/-- The text without white space. -/
def compact : Value → String
  | .null => "null"
  | .bool true => "true"
  | .bool false => "false"
  | .number n => n.text
  | .string s => quoted s
  | .array items => "[" ++ compactItems items ++ "]"
  | .object members => "\x7b" ++ compactMembers members ++ "\x7d"

def compactItems : List Value → String
  | [] => ""
  | [v] => compact v
  | v :: w :: rest => compact v ++ "," ++ compactItems (w :: rest)

def compactMembers : List (String × Value) → String
  | [] => ""
  | [(k, v)] => quoted k ++ ":" ++ compact v
  | (k, v) :: m :: rest => quoted k ++ ":" ++ compact v ++ "," ++ compactMembers (m :: rest)

end

/-- A line break and the indentation of a level. -/
def lineBreak (level : Nat) : String := "\n" ++ String.ofList (List.replicate (2 * level) ' ')

mutual

/-- The text with a line for each item and member; `level` is the depth of the value. -/
def indented (level : Nat) : Value → String
  | .null => "null"
  | .bool true => "true"
  | .bool false => "false"
  | .number n => n.text
  | .string s => quoted s
  | .array [] => "[]"
  | .array (v :: rest) =>
    "[" ++ lineBreak (level + 1) ++ indented (level + 1) v ++ indentedItems level rest ++
      lineBreak level ++ "]"
  | .object [] => "\x7b\x7d"
  | .object ((k, v) :: rest) =>
    "\x7b" ++ lineBreak (level + 1) ++ quoted k ++ ": " ++ indented (level + 1) v ++
      indentedMembers level rest ++ lineBreak level ++ "\x7d"

/-- Further items, each after a comma. -/
def indentedItems (level : Nat) : List Value → String
  | [] => ""
  | v :: rest => "," ++ lineBreak (level + 1) ++ indented (level + 1) v ++ indentedItems level rest

/-- Further members, each after a comma. -/
def indentedMembers (level : Nat) : List (String × Value) → String
  | [] => ""
  | (k, v) :: rest =>
    "," ++ lineBreak (level + 1) ++ quoted k ++ ": " ++ indented (level + 1) v ++
      indentedMembers level rest

end

end Value

end FormatterPlan.Json
