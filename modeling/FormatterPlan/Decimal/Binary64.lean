/-! Magnitudes of binary64 numbers, by significand and exponent, and rounding to them.  A ratio of
natural numbers rounds to the nearest magnitude, and one halfway between two rounds to the even
significand.  All arithmetic is exact, on natural numbers. -/

namespace FormatterPlan

/-- The magnitude `significand · 2 ^ exponent` of a finite binary64 number.  Significands have 53
bits, fewer only at the least exponent. -/
structure Binary64 where
  significand : Nat
  exponent : Int
deriving DecidableEq

namespace Binary64

/-- The least exponent, that of the subnormal numbers and zero. -/
def minExponent : Int := -1074

def maxExponent : Int := 971

def zero : Binary64 := ⟨0, minExponent⟩

/-- The quotient of two numbers, rounded to the nearest integer and from halfway to the even one. -/
def roundedQuotient (num den : Nat) : Nat :=
  let below := num / den
  let twice := 2 * (num % den)
  if den < twice || (twice == den && below % 2 == 1) then below + 1 else below

/-- The greatest `e` with `2 ^ e · den ≤ num`, for positive `num` and `den`. -/
def floorLog2 (num den : Nat) : Int :=
  let guess : Int := (Nat.log2 num : Int) - (Nat.log2 den : Int)
  if den * Nat.pow 2 guess.toNat ≤ num * Nat.pow 2 (-guess).toNat then guess else guess - 1

/-- The magnitude nearest to `num / den`, or `none` beyond the greatest. -/
def ofRatio (num den : Nat) : Option Binary64 :=
  if num = 0 then some zero
  else
    let exponent := max (floorLog2 num den - 52) minExponent
    let significand :=
      roundedQuotient (num * Nat.pow 2 (-exponent).toNat) (den * Nat.pow 2 exponent.toNat)
    let result : Binary64 :=
      if significand = Nat.pow 2 53 then ⟨Nat.pow 2 52, exponent + 1⟩ else ⟨significand, exponent⟩
    if result.exponent ≤ maxExponent then some result else none

def ofNat (n : Nat) : Option Binary64 := ofRatio n 1

/-- The numerator of the value as a ratio over `den`. -/
def num (x : Binary64) : Nat := x.significand * Nat.pow 2 x.exponent.toNat

/-- The denominator of the value: a power of two. -/
def den (x : Binary64) : Nat := Nat.pow 2 (-x.exponent).toNat

def mul (x y : Binary64) : Option Binary64 := ofRatio (x.num * y.num) (x.den * y.den)

/-- The rounded quotient by a `y` that is not zero, or `none` beyond the greatest magnitude. -/
def div (x y : Binary64) : Option Binary64 := ofRatio (x.num * y.den) (x.den * y.num)

/-- The exponent of ten up to which powers of ten are magnitudes. -/
def maxPower : Nat := 308

/-- `x · 10 ^ power` by one rounded multiplication or by rounded divisions, each by at most
`10 ^ 308`; `none` beyond the greatest magnitude. -/
def scale (x : Binary64) (power : Int) : Option Binary64 :=
  if x.significand = 0 then some x
  else if power < -maxPower then do
    let smaller ← x.div (← ofNat (Nat.pow 10 maxPower))
    smaller.scale (power + maxPower)
  else if power < 0 then do x.div (← ofNat (Nat.pow 10 (-power).toNat))
  else if power ≤ maxPower then do x.mul (← ofNat (Nat.pow 10 power.toNat))
  else none
termination_by power.natAbs
decreasing_by simp only [maxPower] at *; omega

end Binary64

end FormatterPlan
