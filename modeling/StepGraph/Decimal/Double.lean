/-
Finite binary doubles, in exact arithmetic.

A finite double is a sign, a significand below `2 ^ 53` and a power of two.
The one rounding rule, to the nearest double with ties to an even
significand, is `Double.ofRatio`; a decimal, a product and a quotient are
all ratios of naturals, so they round by it too.  Nothing here touches the
machine's floating-point unit.
-/

namespace StepGraph

/-- A finite double: `significand * 2 ^ exponent`, negated when `negative`. -/
structure Double where
  negative : Bool
  significand : Nat
  exponent : Int
deriving DecidableEq

namespace Double

def minExponent : Int := -1074

def maxExponent : Int := 971

def zero (negative : Bool) : Double := ⟨negative, 0, minExponent⟩

/-- Whether the double is zero of either sign. -/
def isZero (x : Double) : Bool := x.significand = 0

/-- The double with the given sign and the same size. -/
def withSign (negative : Bool) (x : Double) : Double := { x with negative := negative }

/-- A quotient rounded to the nearest natural, a half to the even one. -/
def roundQuotient (num den : Nat) : Nat :=
  let quotient := num / den
  let twice := 2 * (num % den)
  if twice < den then quotient
  else if den < twice then quotient + 1
  else if quotient % 2 = 0 then quotient else quotient + 1

/-- The naturals whose ratio is `num / den / base ^ power`. -/
def scaleDown (base num den : Nat) (power : Int) : Nat × Nat :=
  if power < 0 then (num * Nat.pow base power.natAbs, den)
  else (num, den * Nat.pow base power.natAbs)

/-- The greatest `e` with `2 ^ e ≤ num / den`, for positive operands. -/
def floorLog2 (num den : Nat) : Int :=
  let guess : Int := (num.log2 : Int) - (den.log2 : Int)
  let scaled := scaleDown 2 num den guess
  if scaled.2 ≤ scaled.1 then guess else guess - 1

/-- The double nearest to `num / den`, or none when that is beyond the largest. -/
def ofRatio (negative : Bool) (num den : Nat) : Option Double :=
  if num = 0 then some (zero negative)
  else
    let exponent := max (floorLog2 num den - 52) minExponent
    let scaled := scaleDown 2 num den exponent
    let significand := roundQuotient scaled.1 scaled.2
    let carried :=
      if significand = Nat.pow 2 53 then (Nat.pow 2 52, exponent + 1) else (significand, exponent)
    if maxExponent < carried.2 then none else some ⟨negative, carried.1, carried.2⟩

/-- The size of a double as a ratio of naturals. -/
def ratio (x : Double) : Nat × Nat :=
  if x.exponent < 0 then (x.significand, Nat.pow 2 x.exponent.natAbs)
  else (x.significand * Nat.pow 2 x.exponent.natAbs, 1)

def mul (x y : Double) : Option Double :=
  ofRatio (x.negative != y.negative) (x.ratio.1 * y.ratio.1) (x.ratio.2 * y.ratio.2)

/-- The rounded quotient by a double that is not zero. -/
def div (x y : Double) : Option Double :=
  ofRatio (x.negative != y.negative) (x.ratio.1 * y.ratio.2) (x.ratio.2 * y.ratio.1)

/-- The number of decimal digits of a natural, one for zero. -/
def digitCount (n : Nat) : Nat := (Nat.toDigits 10 n).length

/-- The double nearest to `digits * 10 ^ exponent`, or none when that is beyond the
largest.  Sizes far outside the range of doubles are settled by their number of
digits, so that no huge power of ten is computed. -/
def ofDecimal (negative : Bool) (digits : Nat) (exponent : Int) : Option Double :=
  let magnitude : Int := (digitCount digits : Int) + exponent
  if digits = 0 ∨ magnitude < -400 then some (zero negative)
  else if 400 < magnitude then none
  else
    let scaled := scaleDown 10 digits 1 (-exponent)
    ofRatio negative scaled.1 scaled.2

/-- The double nearest to a natural below `2 ^ 1024`. -/
def ofNat? (n : Nat) : Option Double := ofRatio false n 1

end Double

end StepGraph
