/-! Paths from the root of a JSON value to one of its parts. -/

namespace FormatterPlan.Json

/-- A step into a member, into an item, or to a member whose key is not known. -/
inductive Step where
  | key (name : String)
  | index (n : Nat)
  | unknown
deriving DecidableEq

/-- A path, outermost step first. -/
abbrev Path := List Step

namespace Path

/-- The text of further steps: keys after a point, positions in brackets. -/
def textAfter : Path → String
  | [] => ""
  | .key name :: rest => "." ++ name ++ textAfter rest
  | .index n :: rest => "[" ++ Nat.repr n ++ "]" ++ textAfter rest
  | .unknown :: rest => ".?" ++ textAfter rest

def text : Path → String
  | [] => "."
  | .key name :: rest => name ++ textAfter rest
  | .unknown :: rest => "?" ++ textAfter rest
  | .index n :: rest => "[" ++ Nat.repr n ++ "]" ++ textAfter rest

end Path

end FormatterPlan.Json
