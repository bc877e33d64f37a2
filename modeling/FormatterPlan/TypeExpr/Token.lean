import FormatterPlan.Text.Blank

/-! The tokens of a written type reference: dotted identifiers of ASCII letters, digits and
underscores, and eight punctuation marks, with white space between them where the author likes. -/

namespace FormatterPlan

/-- A token of a written type reference. -/
inductive Token where
  | ident (name : String)
  | punct (mark : Char)
deriving DecidableEq

namespace Token

/-- An identifier starts with a letter or an underscore. -/
def isIdentStart (c : Char) : Bool := c.isAlpha || c == '_'

/-- An identifier goes on with letters, digits, underscores and dots. -/
def isIdentRest (c : Char) : Bool := c.isAlphanum || c == '_' || c == '.'

/-- The punctuation marks of type references. -/
def isPunct (c : Char) : Bool :=
  c == '<' || c == '>' || c == ',' || c == '[' || c == ']' || c == '(' || c == ')' || c == '?'

/-- The token as messages show it: its form, then its text in quotes. -/
def shown : Token → String
  | .ident name => "Ident(\"" ++ name ++ "\")"
  | .punct mark => "Punct('" ++ String.singleton mark ++ "')"

/-- The tokens of a text.  The error is the text, without leading white space, from the first
character on that starts no token. -/
def scan (cs : List Char) : Except String (List Token) :=
  match _trimmed : Text.trimBlank cs with
  | [] => .ok []
  | c :: rest =>
    if isIdentStart c then
      (scan (rest.dropWhile isIdentRest)).map
        (.ident (String.ofList (c :: rest.takeWhile isIdentRest)) :: ·)
    else if isPunct c then (scan rest).map (.punct c :: ·)
    else .error (String.ofList (c :: rest))
termination_by cs.length
decreasing_by
  all_goals
    have blank := Text.trimBlank_length_le cs
    have ident := (List.dropWhile_suffix (l := rest) isIdentRest).length_le
    rw [_trimmed, List.length_cons] at blank
    omega

end Token

end FormatterPlan
