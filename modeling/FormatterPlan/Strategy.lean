import FormatterPlan.TypeName

/-! Strategies: how a type is written.  A strategy refers to other types by name only, so the
strategies of types that refer to each other are finite. -/

namespace FormatterPlan

inductive PlannedKey where
  | int (n : Int)
  | string (s : String)
deriving DecidableEq

/-- The formatter of a planned member: the one of its declared type, or one that it names. -/
inductive PlannedFormatter where
  | ofType
  | custom (formatter : TypeName)
deriving DecidableEq

/-- A member as it is written. -/
structure PlannedMember where
  name : String
  key : PlannedKey
  declared : TypeName
  formatter : PlannedFormatter
deriving DecidableEq

/-- A variant as it is written: behind its tag. -/
structure UnionArm where
  tag : Int
  variant : TypeName
deriving DecidableEq

/-- How an object is written: by position, up to a length and with nothing at the positions that no
member has, or by key. -/
inductive ObjectLayout where
  | positions (length : Nat)
  | keys
deriving DecidableEq

inductive Strategy where
  | builtin (formatter : String)
  | enumeration (underlying : TypeName)
  | collection (adapter : String) (backing : Option String) (elements : List TypeName)
  | custom (formatter : TypeName)
  | object (layout : ObjectLayout) (members : List PlannedMember)
  | union (arms : List UnionArm)
  /-- Another resolver formats the type. -/
  | assumed
  | unresolved
deriving DecidableEq

/-- Whether a strategy has an entry in a formatter table.  Types with fixed formatters need none,
and the table has nothing to say on types that are formatted elsewhere or not at all. -/
def Strategy.isTabled : Strategy → Bool
  | .builtin _ | .assumed | .unresolved => false
  | _ => true

end FormatterPlan
