import FormatterPlan.Text.Segment

/-! Names of declarations.  A declaration is known by its dotted name and its number of generic
parameters; its metadata name is the dotted name with that number after a grave accent, when there
are any. -/

namespace FormatterPlan

/-- The grave accent, which stands before the number of generic parameters. -/
def arityMark : Char := '\x60'

/-- The metadata name of a declaration with `arity` generic parameters. -/
def metadataName (name : String) (arity : Nat) : String :=
  if arity = 0 then name else name ++ String.singleton arityMark ++ Nat.repr arity

/-- The value of a decimal numeral over the digits read so far; `none` at another character. -/
def readDigits : (value : Nat) → List Char → Option Nat
  | value, [] => some value
  | value, c :: cs => if c.isDigit then readDigits (10 * value + (c.toNat - '0'.toNat)) cs else none

/-- An arity as a metadata name gives it: decimal digits, at least one, after at most one plus sign,
of a value that fits 64 bits. -/
def readArity (cs : List Char) : Option Nat :=
  let digits := match cs with
    | '+' :: rest => rest
    | _ => cs
  if digits.isEmpty then none
  else (readDigits 0 digits).bind fun n => if n < Nat.pow 2 64 then some n else none

/-- The dotted name and the arity of a metadata name.  A name whose last grave accent is not
followed by an arity is a dotted name of arity zero. -/
def splitArity (metadata : String) : String × Nat :=
  match Text.splitLast arityMark metadata.toList with
  | some (name, digits) =>
    match readArity digits with
    | some arity => (String.ofList name, arity)
    | none => (metadata, 0)
  | none => (metadata, 0)

end FormatterPlan
