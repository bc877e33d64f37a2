import FormatterPlan.NamePattern.Nesting

/-! What can be wrong with a written name pattern, and the message that shows where. -/

namespace FormatterPlan.NamePattern

/-- No part of a written pattern lies inside this many others. -/
def maxNesting : Nat := 250

inductive Fault where
  | unclosedGroup
  | unopenedGroup
  | nothingToRepeat
  | endInEscape
  | unknownEscape
  | unsupported
  | tooNested
deriving DecidableEq

def Fault.message : Fault → String
  | .unclosedGroup => "unclosed group"
  | .unopenedGroup => "unopened group"
  | .nothingToRepeat => "repetition operator missing expression"
  | .endInEscape => "incomplete escape sequence, reached end of pattern prematurely"
  | .unknownEscape => "unrecognized escape sequence"
  | .unsupported => "unsupported construct"
  | .tooNested =>
    "exceed the maximum number of nested parentheses/brackets (" ++ Nat.repr maxNesting ++ ")"

/-- A fault of a written pattern and the part that it concerns. -/
structure FaultIn where
  pattern : String
  fault : Fault
  extent : Extent

/-- A line of a text and a column in it, both counted from zero. -/
structure Location where
  line : Nat
  column : Nat
deriving DecidableEq

/-- Where a position of a text is. -/
def Location.ofPosition (text : List Char) (position : Nat) : Location :=
  let before := text.take position
  ⟨before.count '\n', (before.reverse.takeWhile (· != '\n')).length⟩

/-- The lines of a text without the line feeds that end them, and without a carriage return before a
line feed; `line` holds the characters that precede the text on its first line, last first. -/
def linesFrom (line : List Char) : List Char → List String
  | [] => if line.isEmpty then [] else [String.ofList line.reverse]
  | '\r' :: '\n' :: rest => String.ofList line.reverse :: linesFrom [] rest
  | '\n' :: rest => String.ofList line.reverse :: linesFrom [] rest
  | c :: rest => linesFrom (c :: line) rest

def row (count : Nat) (c : Char) : String := String.ofList (List.replicate count c)

/-- What stands before a line of a text with `breaks` line feeds: the number of the line, unless it
is the only one. -/
def margin (breaks line : Nat) : String :=
  if breaks = 0 then row 4 ' '
  else
    let number := Nat.repr (line + 1)
    row ((Nat.repr (breaks + 1)).length - number.length) ' ' ++ number ++ ": "

/-- A line with its margin, and below it carets under the part from `first` to `last` if that part
lies in the line. -/
def notedLine (breaks : Nat) (first last : Location) (line : Nat) (text : String) : String :=
  let margin := margin breaks line
  let carets :=
    if first.line = line ∧ last.line = line then
      row (margin.length + first.column) ' ' ++ row (max 1 (last.column - first.column)) '^' ++ "\n"
    else ""
  margin ++ text ++ "\n" ++ carets

/-- The place of a part that takes up more than one line. -/
def acrossLines (first last : Location) : String :=
  "on line " ++ Nat.repr (first.line + 1) ++ " (column " ++ Nat.repr (first.column + 1) ++
    ") through line " ++ Nat.repr (last.line + 1) ++ " (column " ++ Nat.repr last.column ++ ")\n"

/-- The pattern with its fault marked, and what the fault is.  Several lines have numbers and stand
between two rules. -/
def FaultIn.message (f : FaultIn) : String :=
  let text := f.pattern.toList
  let breaks := text.count '\n'
  let first := Location.ofPosition text f.extent.start
  let last := Location.ofPosition text f.extent.stop
  let rule := if breaks = 0 then "" else row 79 '~' ++ "\n"
  let lines := String.join ((linesFrom [] text).mapIdx (notedLine breaks first last))
  "regex parse error:\n" ++ rule ++ lines ++ rule ++
    (if first.line = last.line then "" else acrossLines first last) ++ "error: " ++ f.fault.message

end FormatterPlan.NamePattern
