import FormatterPlan.Json.Cursor
import FormatterPlan.Json.Value

/-! Numerals of JSON.  A numeral without fraction and exponent that fits 64 bits is an integer;
every other one, and minus zero, is a binary64 number: the leading digits that fit 64 bits, rounded,
then scaled by the power of ten that the other digits and the exponent come to. -/

namespace FormatterPlan.Json

/-- The digits of a numeral as they are read: the number they form, the power of ten it has to be
multiplied by, and whether a digit has been left out because the number would exceed 64 bits. -/
structure Significand where
  value : Nat
  power : Int
  full : Bool

namespace Significand

def digit (c : Char) : Nat := c.toNat - '0'.toNat

/-- Whether a further digit still fits 64 bits. -/
def fits (value : Nat) (c : Char) : Bool := 10 * value + digit c < Nat.pow 2 64

/-- Adds a digit before the decimal point. -/
def pushInteger (s : Significand) (c : Char) : Significand :=
  if !s.full && fits s.value c then { s with value := 10 * s.value + digit c }
  else { s with power := s.power + 1, full := true }

/-- Adds a digit after the decimal point. -/
def pushFraction (s : Significand) (c : Char) : Significand :=
  if !s.full && fits s.value c then
    { s with value := 10 * s.value + digit c, power := s.power - 1 }
  else { s with full := true }

/-- The number of a significand and an exponent. -/
def toNumber? (negative : Bool) (s : Significand) (exponent : Int) : Option Number :=
  match (Binary64.ofNat s.value).bind (·.scale (s.power + exponent)) with
  | some magnitude => some (.float negative magnitude)
  | none => none

end Significand

/-- The greatest exponent that is read; beyond it a numeral is zero or out of range. -/
def maxWrittenExponent : Nat := Nat.pow 2 31 - 1

/-- The digits of an exponent; `none` in the place of their value once it exceeds the greatest. -/
def readExponent (position : Position) (value : Nat) : List Char → Option Nat × Cursor
  | [] => (some value, ⟨[], position⟩)
  | c :: cs =>
    if c.isDigit then
      let next := 10 * value + Significand.digit c
      if next ≤ maxWrittenExponent then readExponent (Cursor.after position c) next cs
      else (none, ⟨cs, Cursor.after position c⟩)
    else (some value, ⟨c :: cs, position⟩)

/-- The end of a numeral from its exponent mark on, which the cursor is past. -/
def finishExponent (negative : Bool) (s : Significand) (cursor : Cursor) :
    Except FaultAt Number × Cursor :=
  let (down, digits) := match cursor.rest with
    | '+' :: rest => (false, cursor.past '+' rest)
    | '-' :: rest => (true, cursor.past '-' rest)
    | _ => (false, cursor)
  match digits.rest with
  | [] => (.error (digits.faultHere .endInValue), digits)
  | c :: _ =>
    if !c.isDigit then (.error (digits.faultAhead .badNumber), digits)
    else
      match readExponent digits.position 0 digits.rest with
      | (some value, stop) =>
        let exponent : Int := if down then -(value : Int) else value
        match s.toNumber? negative exponent with
        | some number => (.ok number, stop)
        | none => (.error (stop.faultHere .hugeNumber), stop)
      | (none, stop) =>
        if s.value ≠ 0 ∧ !down then (.error (stop.faultHere .hugeNumber), stop)
        else (.ok (.float negative .zero), Cursor.passWhile Char.isDigit stop.position stop.rest)

/-- The end of a numeral without exponent. -/
def finishFloat (negative : Bool) (s : Significand) (cursor : Cursor) :
    Except FaultAt Number × Cursor :=
  match s.toNumber? negative 0 with
  | some number => (.ok number, cursor)
  | none => (.error (cursor.faultHere .hugeNumber), cursor)

/-- The end of a numeral from its decimal point on, which the cursor is past. -/
def finishFraction (negative : Bool) (s : Significand) (cursor : Cursor) :
    Except FaultAt Number × Cursor :=
  let digits := cursor.rest.takeWhile Char.isDigit
  let stop := Cursor.passWhile Char.isDigit cursor.position cursor.rest
  let all := digits.foldl Significand.pushFraction { s with full := false }
  if digits.isEmpty then
    (.error (stop.faultAhead (if stop.rest.isEmpty then .endInValue else .badNumber)), stop)
  else
    match stop.rest with
    | 'e' :: rest => finishExponent negative all (stop.past 'e' rest)
    | 'E' :: rest => finishExponent negative all (stop.past 'E' rest)
    | _ => finishFloat negative all stop

/-- The number of a numeral without fraction and exponent: an integer if it fits 64 bits and is not
minus zero. -/
def finishInteger (negative : Bool) (s : Significand) (cursor : Cursor) :
    Except FaultAt Number × Cursor :=
  if s.full then finishFloat negative s cursor
  else if !negative then (.ok (.integer s.value), cursor)
  else if s.value = 0 ∨ Nat.pow 2 63 < s.value then finishFloat true s cursor
  else (.ok (.integer (-(s.value : Int))), cursor)

/-- A numeral from its first digit on; `cursor` is past its sign. -/
def readMagnitude (negative : Bool) (cursor : Cursor) : Except FaultAt Number × Cursor :=
  match cursor.rest with
  | [] => (.error (cursor.faultHere .endInValue), cursor)
  | c :: rest =>
    if !c.isDigit then (.error (cursor.faultAhead .badNumber), cursor)
    else
      let digits := if c = '0' then [c] else cursor.rest.takeWhile Char.isDigit
      let stop := if c = '0' then cursor.past c rest
        else Cursor.passWhile Char.isDigit cursor.position cursor.rest
      let s := digits.foldl Significand.pushInteger ⟨0, 0, false⟩
      match stop.rest with
      | '.' :: rest => finishFraction negative s (stop.past '.' rest)
      | 'e' :: rest => finishExponent negative s (stop.past 'e' rest)
      | 'E' :: rest => finishExponent negative s (stop.past 'E' rest)
      | next :: _ =>
        if c = '0' ∧ next.isDigit then (.error (stop.faultAhead .badNumber), stop)
        else finishInteger negative s stop
      | [] => finishInteger negative s stop

def readNumeral (cursor : Cursor) : Except FaultAt Number × Cursor :=
  match cursor.rest with
  | '-' :: rest => readMagnitude true (cursor.past '-' rest)
  | _ => readMagnitude false cursor

end FormatterPlan.Json
