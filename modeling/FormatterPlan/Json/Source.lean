import FormatterPlan.Json.Fault
import FormatterPlan.Json.Value

/-! JSON values together with the places of the text that they were read from, as far as the text
could be read.  Where reading fails, the tree ends in the fault, so a decoder that goes through the
tree in order meets the fault or an earlier error of its own, whichever comes first in the text.  A
value that no text holds has a tree without places and without faults. -/

namespace FormatterPlan.Json

/-- A value without parts. -/
inductive Scalar where
  | null
  | bool (value : Bool)
  | number (value : Number)
  | string (value : String)

/-- How the reading of a list or an object ends: past its closing bracket, or at a fault. -/
inductive Ending where
  | closed (place : Option Position)
  | fault (fault : FaultAt)

/-- What an attempt to close a list after an item comes to: where the reader then stands, and the
fault if the list does not end there. -/
structure Closing where
  place : Option Position
  fault : Option FaultAt

/-- A key as it was read, the place after it, and the place where an attempt to close the object
after the key leaves the reader. -/
structure Key where
  name : String
  stop : Option Position
  closing : Option Position

mutual

/-- A value as it was read. -/
inductive Source where
  /-- A complete scalar that lies between two places. -/
  | scalar (start : Option Position) (value : Scalar) (stop : Option Position)
  | array (start : Option Position) (items : Items)
  | object (start : Option Position) (members : Members)
  /-- The text does not hold a value here.  The place is that of the first character, if there is
  one and it starts neither a string nor an object. -/
  | broken (start : Option Position) (fault : FaultAt)

/-- The items of a list as they were read. -/
inductive Items where
  | stop (ending : Ending)
  | item (value : Source) (closing : Closing) (rest : Items)

/-- The members of an object as they were read. -/
inductive Members where
  | stop (ending : Ending)
  /-- A last key, after which the colon is missing. -/
  | noColon (key : Key) (fault : FaultAt)
  /-- A member, and the fault of an object that has to end after it and does not. -/
  | member (key : Key) (value : Source) (unended : Option FaultAt) (rest : Members)

end

namespace Source

mutual

/-- A value that no text holds. -/
def ofValue : Value → Source
  | .null => .scalar none .null none
  | .bool b => .scalar none (.bool b) none
  | .number n => .scalar none (.number n) none
  | .string s => .scalar none (.string s) none
  | .array items => .array none (ofItems items)
  | .object members => .object none (ofMembers members)

def ofItems : List Value → Items
  | [] => .stop (.closed none)
  | v :: rest => .item (ofValue v) ⟨none, none⟩ (ofItems rest)

def ofMembers : List (String × Value) → Members
  | [] => .stop (.closed none)
  | (k, v) :: rest => .member ⟨k, none, none⟩ (ofValue v) none (ofMembers rest)

end

end Source

def Scalar.value : Scalar → Value
  | .null => .null
  | .bool b => .bool b
  | .number n => .number n
  | .string s => .string s

mutual

/-- The value that was read, or the fault. -/
def Source.value : Source → Except FaultAt Value
  | .scalar _ s _ => .ok s.value
  | .array _ items => do .ok (.array (← items.values))
  | .object _ members => do .ok (.object (Value.ofMembers (← members.values)))
  | .broken _ fault => .error fault

/-- The values of the items, or the first fault. -/
def Items.values : Items → Except FaultAt (List Value)
  | .stop (.closed _) => .ok []
  | .stop (.fault fault) => .error fault
  | .item value _ rest => do
    let v ← value.value
    .ok (v :: (← rest.values))

/-- The keys and values of the members, repeated keys included, or the first fault. -/
def Members.values : Members → Except FaultAt (List (String × Value))
  | .stop (.closed _) => .ok []
  | .stop (.fault fault) => .error fault
  | .noColon _ fault => .error fault
  | .member key value _ rest => do
    let v ← value.value
    .ok ((key.name, v) :: (← rest.values))

end

end FormatterPlan.Json
