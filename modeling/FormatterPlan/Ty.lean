/-! Types over the declarations of an assembly: a declaration with its type arguments, an array, or
a generic parameter of the declaration around it.  Substitution closes the parameters, and two types
unify when parameters, which match anything, are all that keeps them apart. -/

namespace FormatterPlan

/-- The position of a declaration in its assembly. -/
structure Symbol where
  index : Nat
deriving DecidableEq

/-- A type as it occurs in an assembly. -/
inductive Ty where
  | named (symbol : Symbol) (args : List Ty)
  | array (element : Ty) (rank : Nat)
  | param (index : Nat) (name : String)

namespace Ty

mutual

def decEq : (a b : Ty) → Decidable (a = b)
  | .named s xs, .named t ys =>
    if hs : s = t then
      match decEqAll xs ys with
      | .isTrue h => .isTrue (by rw [hs, h])
      | .isFalse h => .isFalse (by intro e; cases e; exact h rfl)
    else .isFalse (by intro e; cases e; exact hs rfl)
  | .array a m, .array b n =>
    if hm : m = n then
      match decEq a b with
      | .isTrue h => .isTrue (by rw [hm, h])
      | .isFalse h => .isFalse (by intro e; cases e; exact h rfl)
    else .isFalse (by intro e; cases e; exact hm rfl)
  | .param i x, .param j y =>
    if h : i = j ∧ x = y then .isTrue (by rw [h.1, h.2])
    else .isFalse (by intro e; cases e; exact h ⟨rfl, rfl⟩)
  | .named .., .array .. | .named .., .param .. | .array .., .named .. | .array .., .param ..
  | .param .., .named .. | .param .., .array .. => .isFalse (by intro e; cases e)

def decEqAll : (xs ys : List Ty) → Decidable (xs = ys)
  | [], [] => .isTrue rfl
  | x :: xs, y :: ys =>
    match decEq x y, decEqAll xs ys with
    | .isTrue h, .isTrue hs => .isTrue (by rw [h, hs])
    | .isFalse h, _ => .isFalse (by intro e; cases e; exact h rfl)
    | _, .isFalse hs => .isFalse (by intro e; cases e; exact hs rfl)
  | [], _ :: _ | _ :: _, [] => .isFalse (by intro e; cases e)

end

instance : DecidableEq Ty := decEq

mutual

/-- Puts the arguments `context` in the place of the parameters, by position.  A parameter beyond
them stays. -/
def subst (context : List Ty) : Ty → Ty
  | .named symbol args => .named symbol (substAll context args)
  | .array element rank => .array (subst context element) rank
  | .param index name => (context[index]?).getD (.param index name)

def substAll (context : List Ty) : List Ty → List Ty
  | [] => []
  | t :: ts => subst context t :: substAll context ts

end

theorem substAll_eq_map (context ts : List Ty) : substAll context ts = ts.map (subst context) := by
  induction ts with
  | nil => rfl
  | cons t ts ih => rw [substAll, ih, List.map_cons]

mutual

def isClosed : Ty → Bool
  | .named _ args => allClosed args
  | .array element _ => isClosed element
  | .param .. => false

/-- Whether no type of a list mentions a parameter. -/
def allClosed : List Ty → Bool
  | [] => true
  | t :: ts => isClosed t && allClosed ts

end

theorem allClosed_eq_all (ts : List Ty) : allClosed ts = ts.all isClosed := by
  induction ts with
  | nil => rfl
  | cons t ts ih => rw [allClosed, ih, List.all_cons]

mutual

/-- Whether two types have the same form where neither has a parameter.  A parameter on either side
matches anything, each time it occurs. -/
def unifies : Ty → Ty → Bool
  | .param .., _ => true
  | .named .., .param .. => true
  | .named s xs, .named t ys => s == t && unifiesAll xs ys
  | .named .., .array .. => false
  | .array .., .param .. => true
  | .array a m, .array b n => m == n && unifies a b
  | .array .., .named .. => false

/-- Whether two lists are equally long and their types unify one by one. -/
def unifiesAll : List Ty → List Ty → Bool
  | [], [] => true
  | x :: xs, y :: ys => unifies x y && unifiesAll xs ys
  | [], _ :: _ => false
  | _ :: _, [] => false

end

def symbol? : Ty → Option Symbol
  | .named symbol _ => some symbol
  | _ => none

/-- The type arguments; arrays and parameters have none. -/
def args : Ty → List Ty
  | .named _ args => args
  | _ => []

/-- A declaration applied to its own parameters. -/
def definition (symbol : Symbol) (generics : List String) : Ty :=
  .named symbol (generics.mapIdx .param)

end Ty

end FormatterPlan
