/-
Quoted scalars.

Between single quotes a doubled quote is the only escape.  Between double
quotes a backslash starts one, also of a line break.  A line inside a quoted
scalar must not start with a marker between documents.

`fuel` is a bound on the characters that are left; each round takes one at
least.
-/
import StepGraph.Yaml.Gap

namespace StepGraph.Yaml.QuotedScalar

open StepGraph.Text (hexValue?)

/-- The quote that opens and closes the scalar. -/
inductive Quote where
  | single
  | double
deriving DecidableEq

def Quote.char : Quote → Char
  | .single => '\''
  | .double => '"'

/-- The character that a letter stands for after a backslash. -/
def shortEscape? (c : Char) : Option Char :=
  if c = '0' then some '\x00'
  else if c = 'a' then some '\x07'
  else if c = 'b' then some '\x08'
  else if c = 't' || c = '\t' then some '\t'
  else if c = 'n' then some '\n'
  else if c = 'v' then some '\x0b'
  else if c = 'f' then some '\x0c'
  else if c = 'r' then some '\x0d'
  else if c = 'e' then some '\x1b'
  else if c = ' ' then some ' '
  else if c = '"' then some '"'
  else if c = '/' then some '/'
  else if c = '\\' then some '\\'
  else if c = 'N' then some '\u0085'
  else if c = '_' then some '\u00a0'
  else if c = 'L' then some '\u2028'
  else if c = 'P' then some '\u2029'
  else none

/-- The number of hexadecimal digits behind a letter after a backslash. -/
def escapeWidth? (c : Char) : Option Nat :=
  if c = 'x' then some 2
  else if c = 'u' then some 4
  else if c = 'U' then some 8
  else none

/-- The number that exactly `count` hexadecimal digits at the front of the text write. -/
def hexNumber? : Nat → Nat → List Char → Option Nat
  | 0, value, _ => some value
  | count + 1, value, c :: text => do hexNumber? count (value * 16 + (← hexValue? c)) text
  | _ + 1, _, [] => none

/-- The character of a number; surrogates and numbers beyond the last character have
none. -/
def charOf? (n : Nat) : Option Char :=
  if (0xD800 ≤ n ∧ n ≤ 0xDFFF) ∨ 0x10FFFF < n then none else some (Char.ofNat n)

/-- The character that an escape after a backslash stands for. -/
def readEscape (pos : Cursor) : Option (Char × Cursor) :=
  match pos.rest with
  | [] => none
  | letter :: text =>
      match escapeWidth? letter with
      | some width => do
          let c ← charOf? (← hexNumber? width 0 text)
          return (c, pos.advance (width + 1))
      | none => (shortEscape? letter).map (·, pos.advance 1)

/-- The characters up to a gap, the closing quote or an escaped break, and whether it was
the latter. -/
def readRun (quote : Quote) : Nat → Cursor → Option (List Char × Bool × Cursor)
  | 0, _ => none
  | fuel + 1, pos =>
      match pos.rest with
      | [] => some ([], false, pos)
      | c :: rest =>
          if isBlank c || isBreak c then some ([], false, pos)
          else do
            match quote, c, rest with
            | .single, '\'', '\'' :: _ =>
                let (cs, escaped, stop) ← readRun quote fuel (pos.advance 2)
                return ('\'' :: cs, escaped, stop)
            | .double, '\\', next :: _ =>
                if isBreak next then return ([], true, (pos.advance 1).takeBreak.2)
                else
                  let (d, behind) ← readEscape (pos.advance 1)
                  let (cs, escaped, stop) ← readRun quote fuel behind
                  return (d :: cs, escaped, stop)
            | .double, '\\', [] => none
            | _, _, _ =>
                if c = quote.char then return ([], false, pos)
                else
                  let (cs, escaped, stop) ← readRun quote fuel (pos.advance 1)
                  return (c :: cs, escaped, stop)

/-- The scalar up to and over its closing quote. -/
def readLines (quote : Quote) : Nat → Cursor → Option (List Char × Cursor)
  | 0, _ => none
  | fuel + 1, pos =>
      if pos.column = 0 && atDocumentMarker pos.rest then none
      else do
        let (run, escaped, pos) ← readRun quote fuel pos
        match pos.rest with
        | [] => none
        | c :: _ =>
            if c = quote.char then return (run, pos.advance 1)
            else
              let (gap, pos) ← Gap.read (-1) fuel { broken := escaped } pos
              let (more, pos) ← readLines quote fuel pos
              return (run ++ gap.text ++ more, pos)

def read (quote : Quote) (pos : Cursor) : Option (List Char × Cursor) :=
  readLines quote (pos.rest.length + 1) (pos.advance 1)

end StepGraph.Yaml.QuotedScalar
