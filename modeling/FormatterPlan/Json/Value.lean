import FormatterPlan.Decimal.Shortest

/-! JSON values.  A number keeps whether it was written as an integer, and an object keeps the order
of its members. -/

namespace FormatterPlan.Json

/-- A number: an integer that fits 64 bits, with or without a sign, or a binary64 number. -/
inductive Number where
  | integer (value : Int)
  | float (negative : Bool) (magnitude : Binary64)
deriving DecidableEq

namespace Number

def text : Number → String
  | .integer value => toString value
  | .float negative magnitude => (if negative then "-" else "") ++ magnitude.text

/-- The integer, if it fits 64 bits with a sign. -/
def signed? : Number → Option Int
  | .integer value => if -(Int.pow 2 63) ≤ value ∧ value < Int.pow 2 63 then some value else none
  | .float .. => none

end Number

inductive Value where
  | null
  | bool (value : Bool)
  | number (value : Number)
  | string (value : String)
  | array (items : List Value)
  | object (members : List (String × Value))

namespace Value

/-- Adds a member to an object.  A repeated key keeps its place and takes the new value. -/
def insertMember (key : String) (value : Value) : List (String × Value) → List (String × Value)
  | [] => [(key, value)]
  | (k, v) :: rest =>
    if k = key then (k, value) :: rest else (k, v) :: insertMember key value rest

/-- The members of an object written with these keys and values. -/
def ofMembers (members : List (String × Value)) : List (String × Value) :=
  members.foldl (fun acc (key, value) => insertMember key value acc) []

def member? (key : String) : Value → Option Value
  | .object members => (members.find? (·.1 == key)).map (·.2)
  | _ => none

end Value

end FormatterPlan.Json
