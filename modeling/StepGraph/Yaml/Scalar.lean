/-
What a scalar's text means.

A plain scalar is null, a boolean, an integer, a double or, failing all
these, text; a scalar in quotes or a block is text.  Four core tags fix the
type, whatever the style, and refuse text that is not of that type.
-/
import StepGraph.Yaml.Tag
import StepGraph.Yaml.Value

namespace StepGraph.Yaml.Scalar

open StepGraph.Text (isDigit hexValue?)

def isNull (text : String) : Bool :=
  text = "~" || text = "null" || text = "Null" || text = "NULL"

def bool? (text : String) : Option Bool :=
  if text = "true" || text = "True" || text = "TRUE" then some true
  else if text = "false" || text = "False" || text = "FALSE" then some false
  else none

/-! ### Integers -/

def digitOf? (base : Nat) (c : Char) : Option Nat :=
  (hexValue? c).filter (· < base)

/-- The natural that digits in a base write; there must be one at least. -/
def natural? (base : Nat) : List Char → Option Nat
  | [] => none
  | digits => digits.foldlM (fun value c => (digitOf? base c).map (value * base + ·)) 0

/-- The base that a letter after a leading zero stands for. -/
def base? (c : Char) : Option Nat :=
  if c = 'x' then some 16 else if c = 'o' then some 8 else if c = 'b' then some 2 else none

/-- The text after a sign, and whether that is a minus. -/
def splitSign : List Char → Bool × List Char
  | '-' :: text => (true, text)
  | '+' :: text => (false, text)
  | text => (false, text)

/-- Whether the text is a sequence of digits that no number starts with: a zero in front
of more digits, behind an optional sign. -/
def isPaddedDigits (text : List Char) : Bool :=
  match (splitSign text).2 with
  | '0' :: c :: rest => (c :: rest).all isDigit
  | _ => false

/-- The size of an integer without its sign: digits in the base that a leading zero and a
letter name, or decimal digits without a leading zero. -/
def magnitude? (text : List Char) : Option Nat :=
  match text with
  | '0' :: c :: rest =>
      match base? c with
      | some base => natural? base rest
      | none => none
  | text => natural? 10 text

def int? (text : List Char) : Option Int :=
  let (negative, digits) := splitSign text
  (magnitude? digits).map fun size => if negative then -(size : Int) else size

/-- How an integer's size decides what is made of it. -/
inductive Width where
  /-- It fits 64 bits, so it stays an integer. -/
  | fits
  /-- It fits only 128 bits, so it is refused. -/
  | wide
  /-- It is no integer at all. -/
  | beyond
deriving DecidableEq

def width (value : Int) : Width :=
  if -Nat.pow 2 63 ≤ value ∧ value < Nat.pow 2 64 then .fits
  else if -Nat.pow 2 127 ≤ value ∧ value < Nat.pow 2 128 then .wide
  else .beyond

/-! ### Doubles -/

/-- Digits before and behind an optional point, at least one in all, with what is left. -/
def readMantissa (text : List Char) : Option (List Char × List Char × List Char) :=
  let whole := text.takeWhile isDigit
  let rest := text.dropWhile isDigit
  let (part, rest) := match rest with
    | '.' :: rest => (rest.takeWhile isDigit, rest.dropWhile isDigit)
    | rest => ([], rest)
  if whole.isEmpty && part.isEmpty then none else some (whole, part, rest)

/-- The exponent that the end of a number writes, zero if there is nothing. -/
def exponent? : List Char → Option Int
  | [] => some 0
  | c :: text =>
      if c = 'e' || c = 'E' then
        let (negative, digits) := splitSign text
        (natural? 10 digits).map fun size => if negative then -(size : Int) else size
      else none

/-- The double that decimal text without a sign writes, unless it is too large for one. -/
def decimal? (negative : Bool) (text : List Char) : Option Double := do
  let (whole, part, rest) ← readMantissa text
  let exponent ← exponent? rest
  let digits ← natural? 10 (whole ++ part)
  Double.ofDecimal negative digits (exponent - part.length)

/-- Whether the text writes an infinity without its sign. -/
def isInfinity (text : List Char) : Bool :=
  let text := String.ofList text
  text = ".inf" || text = ".Inf" || text = ".INF"

def isNan (text : String) : Bool := text = ".nan" || text = ".NaN" || text = ".NAN"

/-- The double, infinity or not-a-number that the text writes. -/
def float? (text : String) : Option Numeral :=
  let (negative, size) := splitSign text.toList
  if isNan text then some .nan
  else if isInfinity size then some (.infinite negative)
  else (decimal? negative size).map fun x => .finite (.double x)

/-! ### Scalars -/

/-- The number that plain text writes, if it writes one; the inner option is none where the
number is refused. -/
def number? (text : String) : Option (Option Numeral) :=
  let float := if isPaddedDigits text.toList then none else (float? text).map some
  match int? text.toList with
  | some value =>
      match width value with
      | .fits => some (some (.finite (.int value)))
      | .wide => some none
      | .beyond => float
  | none => float

def plain? (text : String) : Option Value :=
  if text = "" || isNull text then some .null
  else
    match bool? text with
    | some value => some (.bool value)
    | none =>
        match number? text with
        | some number => number.map .number
        | none => some (.string text)

def taggedInt? (text : String) : Option Value :=
  (int? text.toList).bind fun value =>
    if width value = .fits then some (.number (.finite (.int value))) else none

/-- The value of a scalar; plain text is only read as more than text where its tag does not
stand in the way. -/
def value? (tag : Option Tag) (text : String) (plain : Bool) : Option Value :=
  let untagged := if plain then plain? text else some (.string text)
  match tag with
  | none => untagged
  | some (.short name) => untagged.map (.tagged name)
  | some .unreadable => untagged
  | some .bool => (bool? text).map .bool
  | some .int => taggedInt? text
  | some .float => (float? text).map .number
  | some .null => if isNull text then some .null else none
  | some .foreign => some (.string text)

end StepGraph.Yaml.Scalar
