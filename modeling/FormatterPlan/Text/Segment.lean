/-! Cutting text at the last occurrence of a character, and the replacement of every occurrence of a
word. -/

namespace FormatterPlan.Text

/-- The text before and after the last `sep`, or `none` if `sep` does not occur. -/
def splitLast (sep : Char) : List Char → Option (List Char × List Char)
  | [] => none
  | c :: cs =>
    match splitLast sep cs with
    | some (before, after) => some (c :: before, after)
    | none => if c = sep then some ([], cs) else none

/-- The last segment of a dotted name: all of it if it has no dot. -/
def lastSegment (name : String) : String :=
  match splitLast '.' name.toList with
  | some (_, after) => String.ofList after
  | none => name

/-- Replaces the occurrences of a word that do not overlap, found from left to right: `skip`
characters of `cs` belong to an occurrence that is already replaced. -/
def replaceFrom (word replacement : List Char) : (skip : Nat) → List Char → List Char
  | _, [] => []
  | skip + 1, _ :: cs => replaceFrom word replacement skip cs
  | 0, c :: cs =>
    if word.isPrefixOf (c :: cs) then
      replacement ++ replaceFrom word replacement (word.length - 1) cs
    else c :: replaceFrom word replacement 0 cs

/-- `text` with every occurrence of `word`, which is not empty, replaced. -/
def replaceAll (text word replacement : String) : String :=
  String.ofList (replaceFrom word.toList replacement.toList 0 text.toList)

end FormatterPlan.Text
