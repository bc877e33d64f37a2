import FormatterPlan.NamePattern
import FormatterPlan.NamePattern.Fault

/-! Written name patterns.  A point stands for any character, `^` and `$` for the start and the end,
and alternatives stand between bars; a group is in parentheses, which may open with `(?:`; `*`, `+`
and `?` repeat what is before them, and one more `?` after them changes nothing.  A backslash before
a punctuation mark makes the mark stand for itself, as all other characters do.  Brackets, braces
and other groups and escapes have no meaning yet, and are faults. -/

namespace FormatterPlan.NamePattern

/-- A part of a text as a pattern: where the part starts, and what it holds if it can hold parts. -/
structure Item where
  start : Nat
  pattern : NamePattern
  nesting : Option Nesting := none

/-- What a row of items or alternatives, the last one first, holds.  One alone is no row. -/
def joined (extent : Extent) : List Item → Option Nesting
  | [] => none
  | [item] => item.nesting
  | items => some (.part extent (items.reverse.filterMap (·.nesting)))

/-- A group whose end has not been read: where it opens and where its first alternative starts, its
complete alternatives, and the start and the items of the alternative after them.  Alternatives and
items stand with the last one first. -/
structure Group where
  opening : Nat
  start : Nat
  alternatives : List Item := []
  current : Nat := start
  items : List Item := []

namespace Group

/-- The items so far, one after the other, in front of position `stop`. -/
def alternative (g : Group) (stop : Nat) : Item where
  start := g.current
  pattern := g.items.foldl (fun later item => match later with
    | .nothing => item.pattern
    | later => .sequence item.pattern later) .nothing
  nesting := joined ⟨g.current, stop⟩ g.items

/-- What the group holds, if it ends in front of position `stop`. -/
def content (g : Group) (stop : Nat) : Item :=
  let last := g.alternative stop
  { start := g.start
    pattern := g.alternatives.foldl (fun later item => .either item.pattern later) last.pattern
    nesting := joined ⟨g.start, stop⟩ (last :: g.alternatives) }

/-- The group as an item, with its closing parenthesis at position `closing`. -/
def closed (g : Group) (closing : Nat) : Item :=
  let content := g.content closing
  { start := g.opening
    pattern := content.pattern
    nesting := some (.part ⟨g.opening, closing + 1⟩ content.nesting.toList) }

def push (g : Group) (item : Item) : Group := { g with items := item :: g.items }

/-- Ends the alternative at a bar. -/
def bar (g : Group) (position : Nat) : Group :=
  { g with
    alternatives := g.alternative position :: g.alternatives
    current := position + 1
    items := [] }

end Group

/-- The repetition that a sign asks for. -/
def repetition? : Char → Option (NamePattern → NamePattern)
  | '*' => some .many
  | '+' => some fun inner => .sequence inner (.many inner)
  | '?' => some .atMostOne
  | _ => none

/-- An item that is repeated, up to position `stop`. -/
def Item.repeated (item : Item) (repetition : NamePattern → NamePattern) (stop : Nat) : Item where
  start := item.start
  pattern := repetition item.pattern
  nesting := some (.part ⟨item.start, stop⟩ item.nesting.toList)

/-- Whether a backslash makes a character stand for itself. -/
def isEscapable (c : Char) : Bool :=
  c.val < 0x80 && !c.isAlphanum && c != '<' && c != '>'

/-- What a single character stands for, in a pattern that knows it. -/
def ofChar? : Char → Option NamePattern
  | '.' => some .anyChar
  | '^' => some .atStart
  | '$' => some .atEnd
  | '[' | '\x7b' => none
  | c => some (.char c)

/-- A fault in the characters from `start` on. -/
def faultAt {α : Type} (fault : Fault) (start : Nat) (width : Nat := 1) :
    Except (Fault × Extent) α :=
  .error (fault, ⟨start, start + width⟩)

/-- Reads on from position `index`: `group` is the innermost group that is open, the pattern as a
whole if `outer` is empty. -/
def readFrom (index : Nat) (outer : List Group) (group : Group) :
    List Char → Except (Fault × Extent) Item
  | [] => if outer.isEmpty then .ok (group.content index) else faultAt .unclosedGroup group.opening
  | '(' :: '?' :: ':' :: rest =>
    readFrom (index + 3) (group :: outer) { opening := index, start := index + 3 } rest
  | '(' :: '?' :: [] => faultAt .unclosedGroup index
  | '(' :: '?' :: ')' :: _ => faultAt .nothingToRepeat (index + 1)
  | '(' :: '?' :: _ => faultAt .unsupported index 2
  | '(' :: rest =>
    readFrom (index + 1) (group :: outer) { opening := index, start := index + 1 } rest
  | ')' :: rest =>
    match outer with
    | [] => faultAt .unopenedGroup index
    | parent :: outer => readFrom (index + 1) outer (parent.push (group.closed index)) rest
  | '|' :: rest => readFrom (index + 1) outer (group.bar index) rest
  | '\\' :: [] => faultAt .endInEscape index
  | '\\' :: c :: rest =>
    if isEscapable c then
      readFrom (index + 2) outer (group.push { start := index, pattern := .char c }) rest
    else faultAt .unknownEscape index 2
  | c :: rest =>
    match repetition? c with
    | some repetition =>
      match group.items with
      | [] => faultAt .nothingToRepeat index
      | item :: items =>
        let repeatedTo stop := { group with items := item.repeated repetition stop :: items }
        match rest with
        | '?' :: rest => readFrom (index + 2) outer (repeatedTo (index + 2)) rest
        | rest => readFrom (index + 1) outer (repeatedTo (index + 1)) rest
    | none =>
      match ofChar? c with
      | some pattern => readFrom (index + 1) outer (group.push { start := index, pattern }) rest
      | none => faultAt .unsupported index

/-- The pattern that a text writes. -/
def parse (text : String) : Except FaultIn NamePattern :=
  match readFrom 0 [] { opening := 0, start := 0 } text.toList with
  | .error (fault, extent) => .error ⟨text, fault, extent⟩
  | .ok item =>
    match item.nesting.bind (Nesting.firstInside maxNesting) with
    | some extent => .error ⟨text, .tooNested, extent⟩
    | none => .ok item.pattern

end FormatterPlan.NamePattern
