/-! What can be wrong with a JSON text, and where. -/

namespace FormatterPlan.Json

/-- A place in a text: the number of its line, from one on, and how many bytes of the line are
before it. -/
structure Position where
  line : Nat
  column : Nat
deriving DecidableEq

/-- What follows a message to say where it applies; a fault of a value that no text holds applies
nowhere. -/
def Position.suffix : Option Position → String
  | none => ""
  | some p => " at line " ++ Nat.repr p.line ++ " column " ++ Nat.repr p.column

inductive Fault where
  | endInValue
  | endInString
  | endInList
  | endInObject
  | noColon
  | noListEnd
  | noObjectEnd
  | noWord
  | noValue
  | badEscape
  | badNumber
  | hugeNumber
  | strayTrailingSurrogate
  | strayLeadingSurrogate
  | controlCharacter
  | keyNotString
  | trailingComma
  | trailingText
  | tooDeep
deriving DecidableEq

def Fault.message : Fault → String
  | .endInValue => "EOF while parsing a value"
  | .endInString => "EOF while parsing a string"
  | .endInList => "EOF while parsing a list"
  | .endInObject => "EOF while parsing an object"
  | .noColon => "expected \x60:\x60"
  | .noListEnd => "expected \x60,\x60 or \x60]\x60"
  | .noObjectEnd => "expected \x60,\x60 or \x60\x7d\x60"
  | .noWord => "expected ident"
  | .noValue => "expected value"
  | .badEscape => "invalid escape"
  | .badNumber => "invalid number"
  | .hugeNumber => "number out of range"
  | .strayTrailingSurrogate => "lone leading surrogate in hex escape"
  | .strayLeadingSurrogate => "unexpected end of hex escape"
  | .controlCharacter => "control character (\\u0000-\\u001F) found while parsing a string"
  | .keyNotString => "key must be a string"
  | .trailingComma => "trailing comma"
  | .trailingText => "trailing characters"
  | .tooDeep => "recursion limit exceeded"

/-- A fault and the place where the reader found it. -/
structure FaultAt where
  fault : Fault
  place : Option Position
deriving DecidableEq

def FaultAt.message (f : FaultAt) : String := f.fault.message ++ Position.suffix f.place

end FormatterPlan.Json
