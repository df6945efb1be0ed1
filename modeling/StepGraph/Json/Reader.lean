/-
Reading JSON text.

The reader works on the list of characters that are left; every step that
succeeds takes at least one of them, so `fuel` is their number and never runs
out first.  A document may nest at most 127 containers.  A repeated name in
an object keeps its first place and takes its last value.

A number without fraction and exponent that fits 64 bits stays an integer.
Any other number is read as its first digits that fit 64 bits, rounded to a
double, which is then multiplied or divided by a power of ten and rounded
again; a number beyond the largest double is refused.
-/
import StepGraph.Document
import StepGraph.Text.Digit

namespace StepGraph.Json

open StepGraph.Text (isDigit digitValue hexValue?)

/-- The deepest nesting of containers that is read. -/
def maxNesting : Nat := 127

def isBlank (c : Char) : Bool := c = ' ' || c = '\t' || c = '\n' || c = '\x0d'

def skipBlanks (text : List Char) : List Char := text.dropWhile isBlank

/-! ### Numbers -/

/-- The largest natural that stays an integer. -/
def maxNatural : Nat := Nat.pow 2 64 - 1

/-- A decimal as it is read: the leading digits that fit 64 bits, and the power of
ten of the last of them. -/
structure Scanned where
  digits : Nat
  power : Int
  /-- Whether some digit no longer fitted. -/
  full : Bool

/-- One more digit before the decimal point: dropped once the digits are full, when
it only raises the power. -/
def Scanned.whole (s : Scanned) (digit : Nat) : Scanned :=
  if s.full ∨ maxNatural < s.digits * 10 + digit then
    { s with power := s.power + 1, full := true }
  else { s with digits := s.digits * 10 + digit }

def Scanned.part (s : Scanned) (digit : Nat) : Scanned :=
  if s.full ∨ maxNatural < s.digits * 10 + digit then { s with full := true }
  else { s with digits := s.digits * 10 + digit, power := s.power - 1 }

def powerOfTen (power : Nat) : Option Double := Double.ofNat? (Nat.pow 10 power)

/-- Divides by `10 ^ 308` until at most 308 decimal places are left to shift down. -/
def shiftDown : Nat → Double → Nat → Option Double
  | rounds, x, places =>
      if places ≤ 308 then do x.div (← powerOfTen places)
      else
        match rounds with
        | 0 => some (Double.zero false)
        | rounds + 1 => do
            let y ← x.div (← powerOfTen 308)
            if y.isZero then some y else shiftDown rounds y (places - 308)

/-- The double of a decimal, rounded once for the digits and once for the power; three
rounds of shifting down leave nothing of any digits that fit 64 bits. -/
def scale (digits : Nat) (power : Int) : Option Double := do
  let x ← Double.ofNat? digits
  if power < 0 then shiftDown 3 x power.natAbs
  else if x.isZero then some x
  else if 308 < power then none
  else x.mul (← powerOfTen power.natAbs)

def digits (text : List Char) : List Char × List Char :=
  (text.takeWhile isDigit, text.dropWhile isDigit)

def natural (ds : List Char) : Nat := ds.foldl (fun n c => n * 10 + digitValue c) 0

/-- The digits before the decimal point: no zero in front of others. -/
def wholePart (text : List Char) : Option (List Char × List Char) :=
  match digits text with
  | ([], _) => none
  | ('0' :: _ :: _, _) => none
  | (ds, rest) => some (ds, rest)

/-- The digits behind a decimal point, none if there is no point. -/
def fractionPart : List Char → Option (Option (List Char) × List Char)
  | '.' :: text =>
      match digits text with
      | ([], _) => none
      | (ds, rest) => some (some ds, rest)
  | text => some (none, text)

def exponentSign : List Char → Bool × List Char
  | '-' :: text => (true, text)
  | '+' :: text => (false, text)
  | text => (false, text)

/-- An exponent, none if there is no mark for one. -/
def exponentPart : List Char → Option (Option Int × List Char)
  | c :: text =>
      if c = 'e' || c = 'E' then
        let (negative, text) := exponentSign text
        match digits text with
        | ([], _) => none
        | (ds, rest) =>
            let value : Int := natural ds
            some (some (if negative then -value else value), rest)
      else some (none, c :: text)
  | [] => some (none, [])

/-- The number that a sign, digits, a fraction and an exponent write. -/
def assemble (negative : Bool) (whole : List Char) (part : Option (List Char))
    (exponent : Option Int) : Option Number :=
  let scanned := whole.foldl (fun s c => Scanned.whole s (digitValue c)) ⟨0, 0, false⟩
  let integral := part.isNone && exponent.isNone && !scanned.full
  if integral && !negative then some (.int scanned.digits)
  else if integral && 0 < scanned.digits && scanned.digits ≤ Nat.pow 2 63 then
    some (.int (-scanned.digits))
  else
    let scanned :=
      (part.getD []).foldl (fun s c => Scanned.part s (digitValue c)) { scanned with full := false }
    (scale scanned.digits (scanned.power + exponent.getD 0)).map fun x =>
      .double (x.withSign negative)

def readNumber (text : List Char) : Option (Number × List Char) := do
  let (negative, text) := match text with
    | '-' :: rest => (true, rest)
    | _ => (false, text)
  let (whole, text) ← wholePart text
  let (part, text) ← fractionPart text
  let (exponent, text) ← exponentPart text
  return (← assemble negative whole part exponent, text)

/-! ### Text -/

def hexFour : List Char → Option (Nat × List Char)
  | a :: b :: c :: d :: rest => do
      let a ← hexValue? a
      let b ← hexValue? b
      let c ← hexValue? c
      let d ← hexValue? d
      return (((a * 16 + b) * 16 + c) * 16 + d, rest)
  | _ => none

/-- The character of four hexadecimal digits: a pair of surrogates makes one character,
and a surrogate on its own none. -/
def readUnicode (text : List Char) : Option (Char × List Char) := do
  let (unit, rest) ← hexFour text
  if 0xDC00 ≤ unit ∧ unit ≤ 0xDFFF then none
  else if 0xD800 ≤ unit ∧ unit ≤ 0xDBFF then
    match rest with
    | '\\' :: 'u' :: rest =>
        let (low, rest) ← hexFour rest
        if 0xDC00 ≤ low ∧ low ≤ 0xDFFF then
          some (Char.ofNat (0x10000 + (unit - 0xD800) * 0x400 + (low - 0xDC00)), rest)
        else none
    | _ => none
  else some (Char.ofNat unit, rest)

/-- The character that a letter stands for after a backslash. -/
def shortEscape? (c : Char) : Option Char :=
  if c = '"' then some '"'
  else if c = '\\' then some '\\'
  else if c = '/' then some '/'
  else if c = 'b' then some '\x08'
  else if c = 'f' then some '\x0c'
  else if c = 'n' then some '\n'
  else if c = 'r' then some '\x0d'
  else if c = 't' then some '\t'
  else none

def readChars : Nat → List Char → Option (List Char × List Char)
  | 0, _ => none
  | _ + 1, [] => none
  | fuel + 1, c :: text =>
      if c = '"' then some ([], text)
      else if c.toNat < 32 then none
      else do
        let (c, text) ←
          if c = '\\' then
            match text with
            | 'u' :: text => readUnicode text
            | letter :: text => (shortEscape? letter).map (·, text)
            | [] => none
          else some (c, text)
        let (cs, text) ← readChars fuel text
        return (c :: cs, text)

def readText (text : List Char) : Option (String × List Char) :=
  (readChars (text.length + 1) text).map fun (cs, rest) => (String.ofList cs, rest)

/-! ### Documents -/

def word? : List Char → List Char → Option (List Char)
  | [], text => some text
  | c :: cs, d :: text => if c = d then word? cs text else none
  | _ :: _, [] => none

def readScalar : List Char → Option (Document × List Char)
  | '"' :: text => (readText text).map fun (text, rest) => (.string text, rest)
  | 'n' :: text => (word? ['u', 'l', 'l'] text).map (.null, ·)
  | 't' :: text => (word? ['r', 'u', 'e'] text).map (.bool true, ·)
  | 'f' :: text => (word? ['a', 'l', 's', 'e'] text).map (.bool false, ·)
  | text => (readNumber text).map fun (number, rest) => (.number number, rest)

def readName (text : List Char) : Option (String × List Char) :=
  match skipBlanks text with
  | '"' :: text => do
      let (name, text) ← readText text
      match skipBlanks text with
      | ':' :: text => some (name, text)
      | _ => none
  | _ => none

mutual

/-- A document, with `room` for that many containers. -/
def readDocument (fuel room : Nat) (text : List Char) : Option (Document × List Char) :=
  match fuel with
  | 0 => none
  | fuel + 1 =>
      match skipBlanks text, room with
      | '[' :: text, room + 1 =>
          match skipBlanks text with
          | ']' :: text => some (.list [], text)
          | text => (readItems fuel room text).map fun (items, rest) => (.list items, rest)
      | '{' :: text, room + 1 =>
          match skipBlanks text with
          | '}' :: text => some (.object [], text)
          | text => (readFields fuel room [] text).map fun (fields, rest) => (.object fields, rest)
      | '[' :: _, 0 => none
      | '{' :: _, 0 => none
      | text, _ => readScalar text

def readItems (fuel room : Nat) (text : List Char) : Option (List Document × List Char) :=
  match fuel with
  | 0 => none
  | fuel + 1 => do
      let (item, text) ← readDocument fuel room text
      match skipBlanks text with
      | ']' :: text => some ([item], text)
      | ',' :: text => do
          let (items, text) ← readItems fuel room text
          return (item :: items, text)
      | _ => none

/-- Fields behind those already read, and the brace that closes them. -/
def readFields (fuel room : Nat) (read : Fields Document) (text : List Char) :
    Option (Fields Document × List Char) :=
  match fuel with
  | 0 => none
  | fuel + 1 => do
      let (name, text) ← readName text
      let (value, text) ← readDocument fuel room text
      let read := read.insert name value
      match skipBlanks text with
      | '}' :: text => some (read, text)
      | ',' :: text => readFields fuel room read text
      | _ => none

end

/-- The document that a text writes, if it writes one. -/
def parse? (text : String) : Option Document :=
  let chars := text.toList
  match readDocument (2 * chars.length + 2) maxNesting chars with
  | some (document, rest) => if (skipBlanks rest).isEmpty then some document else none
  | none => none

end StepGraph.Json
