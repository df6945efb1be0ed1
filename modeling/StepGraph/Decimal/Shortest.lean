/-
The shortest decimal that reads back as a given double.

A decimal reads back as a double when it lies in the double's rounding
interval: between the midpoints to its two neighbours, the midpoints
themselves included exactly when the significand is even.  On the grid of
decimals with `n` digits only the two neighbours of the double itself can be
nearest; `Double.shortest` takes the smallest `n` whose grid has one of them
in the interval, the nearer if both are, and of two equally near the even
one.  All comparisons are between naturals.
-/
import StepGraph.Decimal.Double

namespace StepGraph

/-- A decimal `digits * 10 ^ exponent`. -/
structure Decimal where
  digits : Nat
  exponent : Int
deriving DecidableEq

namespace Decimal

/-- Moves at most `count` trailing zeros of the digits into the exponent. -/
def dropZeros : Nat → Decimal → Decimal
  | 0, decimal => decimal
  | count + 1, ⟨digits, exponent⟩ =>
      if digits % 10 = 0 ∧ digits ≠ 0 then dropZeros count ⟨digits / 10, exponent + 1⟩
      else ⟨digits, exponent⟩

end Decimal

namespace Double

/-- A double's size and the ends of its rounding interval over one denominator. -/
structure Interval where
  low : Nat
  value : Nat
  high : Nat
  den : Nat
  closed : Bool

/-- The rounding interval of a double that is not zero.  Below a power of two the
neighbour is half as far away, except among the smallest doubles. -/
def interval (x : Double) : Interval :=
  let gap := if x.significand = Nat.pow 2 52 ∧ minExponent < x.exponent then 1 else 2
  let scaled := scaleDown 2 1 1 (2 - x.exponent)
  { low := (4 * x.significand - gap) * scaled.1
    value := 4 * x.significand * scaled.1
    high := (4 * x.significand + 2) * scaled.1
    den := scaled.2
    closed := x.significand % 2 = 0 }

/-- Whether a natural number of units lies in the interval. -/
def Interval.covers (i : Interval) (point : Nat) : Bool :=
  if i.closed then i.low ≤ point ∧ point ≤ i.high else i.low < point ∧ point < i.high

/-- The multiple of `unit` next to the value that lies in the interval: the nearer
of two, the even of two equally near. -/
def Interval.nearest? (i : Interval) (unit : Nat) : Option Nat :=
  let below := i.value / unit
  let above := below + 1
  match i.covers (below * unit), i.covers (above * unit) with
  | true, true =>
      let down := i.value - below * unit
      let up := above * unit - i.value
      some (if down < up ∨ (down = up ∧ below % 2 = 0) then below else above)
  | true, false => some below
  | false, true => some above
  | false, false => none

/-- The interval with all its bounds divided by `10 ^ power`. -/
def Interval.shift (i : Interval) (power : Int) : Interval :=
  if power < 0 then
    let factor := Nat.pow 10 power.natAbs
    { i with low := i.low * factor, value := i.value * factor, high := i.high * factor }
  else { i with den := i.den * Nat.pow 10 power.natAbs }

/-- The greatest `e` with `10 ^ e ≤ num / den`, for positive operands. -/
def floorLog10 (num den : Nat) : Int :=
  let guess : Int := (digitCount num : Int) - (digitCount den : Int)
  let scaled := scaleDown 10 num den guess
  if scaled.2 ≤ scaled.1 then guess else guess - 1

/-- The decimal of at most `count` digits that reads back, if there is one. -/
def decimalOf? (i : Interval) (magnitude : Int) (count : Nat) : Option Decimal :=
  let exponent := magnitude + 1 - count
  let shifted := i.shift exponent
  (shifted.nearest? shifted.den).map fun digits => ⟨digits, exponent⟩

/-- The shortest decimal that reads back as a double that is not zero; seventeen
digits always do. -/
def shortest (x : Double) : Decimal :=
  let i := x.interval
  let magnitude := floorLog10 i.value i.den
  let found := (List.range 17).findSome? fun n => decimalOf? i magnitude (n + 1)
  (found.getD ⟨0, 0⟩).dropZeros 17

end Double

end StepGraph
