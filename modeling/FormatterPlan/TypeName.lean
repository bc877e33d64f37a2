/-! Names of types: the dotted name of a declaration with the names of its arguments, an array of a
named type, or the name of a parameter.  The names index the types of a graph and the entries of a
table, and they are what a plan prints. -/

namespace FormatterPlan

inductive TypeName where
  | named (name : String) (args : List TypeName)
  | array (element : TypeName) (rank : Nat)
  | param (name : String)

namespace TypeName

mutual

def decEq : (a b : TypeName) → Decidable (a = b)
  | .named x xs, .named y ys =>
    if hx : x = y then
      match decEqAll xs ys with
      | .isTrue h => .isTrue (by rw [hx, h])
      | .isFalse h => .isFalse (by intro e; cases e; exact h rfl)
    else .isFalse (by intro e; cases e; exact hx rfl)
  | .array a m, .array b n =>
    if hm : m = n then
      match decEq a b with
      | .isTrue h => .isTrue (by rw [hm, h])
      | .isFalse h => .isFalse (by intro e; cases e; exact h rfl)
    else .isFalse (by intro e; cases e; exact hm rfl)
  | .param x, .param y =>
    if h : x = y then .isTrue (by rw [h])
    else .isFalse (by intro e; cases e; exact h rfl)
  | .named .., .array .. | .named .., .param .. | .array .., .named .. | .array .., .param ..
  | .param .., .named .. | .param .., .array .. => .isFalse (by intro e; cases e)

def decEqAll : (xs ys : List TypeName) → Decidable (xs = ys)
  | [], [] => .isTrue rfl
  | x :: xs, y :: ys =>
    match decEq x y, decEqAll xs ys with
    | .isTrue h, .isTrue hs => .isTrue (by rw [h, hs])
    | .isFalse h, _ => .isFalse (by intro e; cases e; exact h rfl)
    | _, .isFalse hs => .isFalse (by intro e; cases e; exact hs rfl)
  | [], _ :: _ | _ :: _, [] => .isFalse (by intro e; cases e)

end

instance : DecidableEq TypeName := decEq

mutual

/-- The text of a type name: arguments in angle brackets, and one comma fewer than dimensions in the
square brackets of an array. -/
def text : TypeName → String
  | .named name [] => name
  | .named name (arg :: args) => name ++ "<" ++ text arg ++ textAfter args ++ ">"
  | .array element rank =>
    text element ++ "[" ++ String.ofList (List.replicate (rank - 1) ',') ++ "]"
  | .param name => name

/-- The texts of further arguments, each after a comma. -/
def textAfter : List TypeName → String
  | [] => ""
  | arg :: args => ", " ++ text arg ++ textAfter args

end

mutual

/-- Declared types come before arrays and arrays before parameters.  Declared types compare by name
and then by arguments, arrays by element and then by rank, and texts by code points. -/
def compare : TypeName → TypeName → Ordering
  | .named x xs, .named y ys => (Ord.compare x y).then (compareAll xs ys)
  | .named .., _ => .lt
  | .array .., .named .. => .gt
  | .array a m, .array b n => (compare a b).then (Ord.compare m n)
  | .array .., .param .. => .lt
  | .param x, .param y => Ord.compare x y
  | .param .., _ => .gt

/-- Lists compare at their first difference, and a list comes before its extensions. -/
def compareAll : List TypeName → List TypeName → Ordering
  | [], [] => .eq
  | [], _ :: _ => .lt
  | _ :: _, [] => .gt
  | x :: xs, y :: ys => (compare x y).then (compareAll xs ys)

end

end TypeName

end FormatterPlan
