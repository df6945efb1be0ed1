/-
Values of a YAML document.

Unlike a document tree, a value may hold numbers that are not finite, keys of
any kind, and short tags.  Whether two keys of a mapping are equal is decided
here: integers and doubles are never equal, both zeros are, not-a-number
equals itself, and the order of a mapping's entries does not matter.
-/
import StepGraph.Document
import StepGraph.Decimal.NumberStyle

namespace StepGraph.Yaml

/-- A number of YAML: finite, infinite, or not a number. -/
inductive Numeral where
  | finite (value : Number)
  | infinite (negative : Bool)
  | nan
deriving DecidableEq

namespace Numeral

/-- A positive exponent is written without a sign. -/
def style : NumberStyle := ⟨false⟩

def finiteText : Number → String
  | .int value => NumberStyle.integer value
  | .double value => style.double value

def text : Numeral → String
  | .finite value => finiteText value
  | .infinite false => ".inf"
  | .infinite true => "-.inf"
  | .nan => ".nan"

def same : Numeral → Numeral → Bool
  | .finite (.double x), .finite (.double y) => x = y || (x.isZero && y.isZero)
  | x, y => x = y

end Numeral

/-- A value of a YAML document. -/
inductive Value where
  | null
  | bool (value : Bool)
  | number (value : Numeral)
  | string (text : String)
  | sequence (items : List Value)
  | mapping (entries : List (Value × Value))
  /-- A value with a short tag, whose name is given without its mark. -/
  | tagged (tag : String) (value : Value)

namespace Value

mutual

def same : Value → Value → Bool
  | .null, .null => true
  | .bool x, .bool y => x == y
  | .number x, .number y => x.same y
  | .string x, .string y => x == y
  | .sequence xs, .sequence ys => sameItems xs ys
  | .mapping xs, .mapping ys => xs.length == ys.length && sameEntries xs ys
  | .tagged tag x, .tagged other y => tag == other && same x y
  | _, _ => false

/-- Whether two sequences are equal item by item. -/
def sameItems : List Value → List Value → Bool
  | [], [] => true
  | x :: xs, y :: ys => same x y && sameItems xs ys
  | _, _ => false

/-- Whether every entry has an equal one in the other mapping. -/
def sameEntries : List (Value × Value) → List (Value × Value) → Bool
  | [], _ => true
  | (key, value) :: rest, other =>
      (other.any fun entry => same key entry.1 && same value entry.2) && sameEntries rest other

end

def distinctKeys : List (Value × Value) → Bool
  | [] => true
  | (key, _) :: rest => !(rest.any fun entry => same key entry.1) && distinctKeys rest

end Value

end StepGraph.Yaml
