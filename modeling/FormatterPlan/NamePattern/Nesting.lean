/-! The parts of a written name pattern that can hold other parts (groups, repetitions, and rows of
at least two items or alternatives), and how deep they lie in one another. -/

namespace FormatterPlan.NamePattern

/-- The characters of a written pattern from position `start` on and before position `stop`. -/
structure Extent where
  start : Nat
  stop : Nat
deriving DecidableEq

/-- A part of a written pattern, and in their order the parts that it holds. -/
inductive Nesting where
  | part (extent : Extent) (inner : List Nesting)

namespace Nesting

def extent : Nesting → Extent
  | part extent _ => extent

def inner : Nesting → List Nesting
  | part _ inner => inner

/-- The first part that lies inside `depth` others. -/
def firstInside : (depth : Nat) → Nesting → Option Extent
  | 0, nesting => some nesting.extent
  | depth + 1, nesting => nesting.inner.findSome? (firstInside depth)

end Nesting

end FormatterPlan.NamePattern
