import FormatterPlan.Decimal.Binary64

/-! Shortest decimals.  A magnitude is written with the fewest significant digits that read back as
it; of two such decimals the nearer one is taken, and of two equally near ones that with the even
last digit.  A decimal reads back as a magnitude if it lies in the interval of reals that round to
it. -/

namespace FormatterPlan

/-- The number `digits · 10 ^ exponent`. -/
structure Decimal where
  digits : Nat
  exponent : Int
deriving DecidableEq

namespace Decimal

def ratio (d : Decimal) : Nat × Nat :=
  (d.digits * Nat.pow 10 d.exponent.toNat, Nat.pow 10 (-d.exponent).toNat)

/-- Whether a decimal lies between the midpoints from `x` to its neighbours.  A midpoint itself
rounds to the even significand.  Below a power of two the neighbour is half as far away. -/
def readsBack (x : Binary64) (d : Decimal) : Bool :=
  let (num, den) := d.ratio
  let m := x.significand
  let lower :=
    if m = Nat.pow 2 52 && Binary64.minExponent < x.exponent then 4 * m - 1 else 4 * m - 2
  let upper := 4 * m + 2
  let value := 4 * num * Nat.pow 2 (-x.exponent).toNat
  let unit := den * Nat.pow 2 x.exponent.toNat
  if m % 2 = 0 then lower * unit ≤ value && value ≤ upper * unit
  else lower * unit < value && value < upper * unit

/-- The greatest decimal of the grid `10 ^ exponent` that is at most `x`. -/
def below (x : Binary64) (exponent : Int) : Decimal :=
  ⟨x.num * Nat.pow 10 (-exponent).toNat / (x.den * Nat.pow 10 exponent.toNat), exponent⟩

/-- Of the two decimals of a grid around `x` the one that reads back, if there is one: the nearer if
both do, and halfway between them the one with an even last digit. -/
def onGrid (x : Binary64) (exponent : Int) : Option Decimal :=
  let low := below x exponent
  let high : Decimal := ⟨low.digits + 1, exponent⟩
  match readsBack x low, readsBack x high with
  | true, true =>
    let grid := x.den * Nat.pow 10 exponent.toNat
    let twice := 2 * (x.num * Nat.pow 10 (-exponent).toNat % grid)
    some (if twice < grid || (twice == grid && low.digits % 2 == 0) then low else high)
  | true, false => some low
  | false, true => some high
  | false, false => none

def digitCount (n : Nat) : Nat := (Nat.toDigits 10 n).length

/-- The least `k` with `x < 10 ^ k`, for a magnitude that is not zero. -/
def pointPosition (x : Binary64) : Int :=
  let guess : Int := (digitCount x.num : Int) - (digitCount x.den : Int)
  if x.num * Nat.pow 10 (-guess).toNat < x.den * Nat.pow 10 guess.toNat then guess else guess + 1

/-- The first grid with a hit, from `count` digits on, with at most `more` further digits. -/
def search (x : Binary64) (point : Int) : (more count : Nat) → Decimal
  | 0, count => below x (point - count)
  | more + 1, count => (onGrid x (point - count)).getD (search x point more (count + 1))

/-- The number without trailing zeros, of at most `places`, and how many it had. -/
def stripZeros : (places n : Nat) → Nat × Nat
  | 0, n => (n, 0)
  | places + 1, n =>
    if n % 10 = 0 ∧ n ≠ 0 then
      let (stripped, count) := stripZeros places (n / 10)
      (stripped, count + 1)
    else (n, 0)

/-- The shortest decimal of a magnitude that is not zero, without trailing zeros. -/
def shortest (x : Binary64) : Decimal :=
  let found := search x (pointPosition x) 17 1
  let (digits, zeros) := stripZeros 20 found.digits
  ⟨digits, found.exponent + zeros⟩

/-- The text of a decimal.  Numbers from a hundred thousandth to below `10 ^ 16` are written in
positions with at least one digit on each side of the point, all others with one digit before the
point, no point for a single digit, and a signed exponent. -/
def text (d : Decimal) : String :=
  let digits := Nat.toDigits 10 d.digits
  let point : Int := digits.length + d.exponent
  if 0 ≤ d.exponent && point ≤ 16 then
    String.ofList (digits ++ List.replicate d.exponent.toNat '0' ++ ['.', '0'])
  else if 0 < point && point ≤ 16 then
    String.ofList (digits.take point.toNat ++ '.' :: digits.drop point.toNat)
  else if -5 < point && point ≤ 0 then
    String.ofList ('0' :: '.' :: List.replicate (-point).toNat '0' ++ digits)
  else
    let power := point - 1
    let mantissa := match digits with
      | [] => []
      | [only] => [only]
      | first :: rest => first :: '.' :: rest
    String.ofList mantissa ++ "e" ++ (if power < 0 then "-" else "+") ++ Nat.repr power.natAbs

end Decimal

/-- The text of a magnitude: its shortest decimal, and for zero `0.0`. -/
def Binary64.text (x : Binary64) : String :=
  if x.significand = 0 then "0.0" else (Decimal.shortest x).text

end FormatterPlan
