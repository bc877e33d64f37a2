/-! Patterns of full names.  A name matches if the pattern matches some part of it; the anchors tie
a match to the start or the end of the name. -/

namespace FormatterPlan

inductive NamePattern where
  | nothing
  | char (c : Char)
  /-- One character that does not end a line. -/
  | anyChar
  /-- The empty text at the start of the name. -/
  | atStart
  /-- The empty text at the end of the name. -/
  | atEnd
  | sequence (first second : NamePattern)
  | either (first second : NamePattern)
  | atMostOne (inner : NamePattern)
  | many (inner : NamePattern)

namespace NamePattern

/-- A place in a name: the number of characters before it, and the characters after it. -/
structure Place where
  passed : Nat
  rest : List Char
deriving DecidableEq

/-- The place after the character here, if the character is as it should be. -/
def Place.after? (accepts : Char → Bool) : Place → Option Place
  | ⟨_, []⟩ => none
  | ⟨passed, c :: rest⟩ => if accepts c then some ⟨passed + 1, rest⟩ else none

/-- The places that up to `count` rounds of `step` lead to. -/
def rounds (step : List Place → List Place) : (count : Nat) → List Place → List Place
  | 0, places => places
  | count + 1, places => (places ++ rounds step count (step places)).eraseDups

/-- The places at which matches end that begin at one of `places`.  A round of a repetition that
leads on passes a character, so there are no more such rounds than characters. -/
def ends : NamePattern → List Place → List Place
  | .nothing, places => places
  | .char c, places => places.filterMap (·.after? (· == c))
  | .anyChar, places => places.filterMap (·.after? (· != '\n'))
  | .atStart, places => places.filter (·.passed = 0)
  | .atEnd, places => places.filter (·.rest.isEmpty)
  | .sequence first second, places => second.ends (first.ends places)
  | .either first second, places => (first.ends places ++ second.ends places).eraseDups
  | .atMostOne inner, places => (places ++ inner.ends places).eraseDups
  | .many inner, places =>
    rounds inner.ends (places.foldl (fun most place => max most place.rest.length) 0) places

/-- The places in a name from the one that `passed` characters come before up to its end. -/
def placesFrom (passed : Nat) : (rest : List Char) → List Place
  | [] => [⟨passed, []⟩]
  | c :: rest => ⟨passed, c :: rest⟩ :: placesFrom (passed + 1) rest

/-- Whether the pattern matches a part of the name. -/
def matchesIn (pattern : NamePattern) (name : String) : Bool :=
  !(pattern.ends (placesFrom 0 name.toList)).isEmpty

end NamePattern

end FormatterPlan
