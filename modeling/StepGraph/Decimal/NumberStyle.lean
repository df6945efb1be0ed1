/-
How a double is written out.

A double is written with the digits of its shortest decimal, positionally
when its decimal magnitude is from `-5` to `15` and with an exponent
otherwise.  The written forms that this library needs differ only in whether
a positive exponent carries its sign.
-/
import StepGraph.Decimal.Shortest

namespace StepGraph

/-- The choices left open in the written form of a double. -/
structure NumberStyle where
  /-- Whether a positive exponent is written with `+`. -/
  signsExponent : Bool

namespace NumberStyle

def digitText (n : Nat) : List Char := Nat.toDigits 10 n

def integer (i : Int) : String :=
  String.ofList (if i < 0 then '-' :: digitText i.natAbs else digitText i.natAbs)

/-- Digits with a decimal point after the first `count` of them, padded with zeros so
that a digit stands on either side of the point. -/
def positional (digits : List Char) (count : Int) : List Char :=
  if count ≤ 0 then '0' :: '.' :: (List.replicate count.natAbs '0' ++ digits)
  else
    let whole := digits.take count.natAbs
    let part := digits.drop count.natAbs
    whole ++ List.replicate (count.natAbs - digits.length) '0' ++
      '.' :: (if part.isEmpty then ['0'] else part)

/-- Digits with a point after the first, and a power of ten. -/
def scientific (style : NumberStyle) (digits : List Char) (magnitude : Int) : List Char :=
  let sign := if magnitude < 0 then ['-'] else if style.signsExponent then ['+'] else []
  let point := if digits.length ≤ 1 then [] else ['.']
  digits.take 1 ++ point ++ digits.drop 1 ++ 'e' :: (sign ++ digitText magnitude.natAbs)

def size (style : NumberStyle) (x : Double) : List Char :=
  if x.isZero then ['0', '.', '0']
  else
    let decimal := x.shortest
    let digits := digitText decimal.digits
    let magnitude : Int := digits.length - 1 + decimal.exponent
    if -5 ≤ magnitude ∧ magnitude ≤ 15 then positional digits (magnitude + 1)
    else scientific style digits magnitude

def double (style : NumberStyle) (x : Double) : String :=
  String.ofList (if x.negative then '-' :: style.size x else style.size x)

end NumberStyle

end StepGraph
