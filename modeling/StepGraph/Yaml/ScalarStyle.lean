/-
How a text is written as a YAML scalar.

A text with line feeds is written as a literal block.  Any other text is
written plain if it then reads back as the same text, else between single
quotes, and between double quotes where those cannot hold it.  No line is
ever folded; a line break inside a scalar is followed by the indentation of
the scalar.
-/
import StepGraph.Yaml.Scalar

namespace StepGraph.Yaml

/-- A style of writing a scalar. -/
inductive ScalarStyle where
  | plain
  | singleQuoted
  | doubleQuoted
  | literal
deriving DecidableEq

namespace ScalarStyle

/-! ### Which styles can hold a text -/

/-- A character that is written as itself in every style but the plain one. -/
def isPrintable (c : Char) : Bool :=
  let n := c.toNat
  n = 0x0A || (0x20 ≤ n && n ≤ 0x7E) || (0xA0 ≤ n && n ≤ 0xFFFD && n ≠ 0xFEFF) ||
    0x10000 ≤ n

/-- Whether a character of one class stands right before a character of another. -/
def hasPair (first second : Char → Bool) : List Char → Bool
  | c :: d :: rest => (first c && second d) || hasPair first second (d :: rest)
  | _ => false

def isSpace (c : Char) : Bool := c = ' '

def isGap (c : Char) : Bool := isBlank c || isBreak c

/-- Whether a colon ends the text or stands before a gap. -/
def hasKeyMark : List Char → Bool
  | [] => false
  | c :: rest => (c = ':' && atGapOrEnd rest) || hasKeyMark rest

/-- Whether a plain scalar cannot start like the text. -/
def startsMarked : List Char → Bool
  | '-' :: '-' :: '-' :: _ => true
  | '.' :: '.' :: '.' :: _ => true
  | c :: rest =>
      if c = '-' || c = '?' then atGapOrEnd rest
      else isIndicator c && c ≠ ':'
  | [] => false

def allowsPlain (text : List Char) : Bool :=
  text.all isPrintable && !text.any isBreak && !startsMarked text && !hasKeyMark text &&
    !hasPair isGap (· = '#') text && text.head? ≠ some ' ' && text.getLast? ≠ some ' '

/-- Whether single quotes can hold the text: no spaces around a line break. -/
def allowsSingle (text : List Char) : Bool :=
  text.all isPrintable && !hasPair isBreak isSpace text && !hasPair isSpace isBreak text

/-- Whether a literal block can hold the text: no space at the end of a line. -/
def allowsLiteral (text : List Char) : Bool :=
  text.all isPrintable && !hasPair isSpace isBreak text && text.getLast? ≠ some ' '

/-- Whether the text, written plain, is not taken for anything else. -/
def readsAsText (text : String) : Bool :=
  match Scalar.plain? text with
  | some (.string _) => !Scalar.isPaddedDigits text.toList
  | _ => false

def ofText (text : String) : ScalarStyle :=
  let chars := text.toList
  if chars.contains '\n' then if allowsLiteral chars then .literal else .doubleQuoted
  else if readsAsText text && allowsPlain chars then .plain
  else if allowsSingle chars then .singleQuoted
  else .doubleQuoted

/-! ### Writing in a style -/

def spaces (count : Nat) : List Char := List.replicate count ' '

/-- Characters as they are written, with indentation in front of the first one and behind a
line break.  `fresh` says whether the text starts behind a break. -/
def indented (indent : Nat) (write : Char → List Char) : Bool → List Char → List Char
  | _, [] => []
  | fresh, c :: rest =>
      if isBreak c then c :: indented indent write true rest
      else (if fresh then spaces indent else []) ++ write c ++ indented indent write false rest

/-- Whether the last character is a line break. -/
def endsBroken (text : List Char) : Bool := (text.getLast?.map isBreak).getD false

/-- A character between single quotes, where a quote is doubled. -/
def singleChar (c : Char) : List Char := if c = '\'' then ['\'', '\''] else [c]

def writeSingle (indent : Nat) (text : List Char) : List Char :=
  '\'' :: (indented indent singleChar false text ++
    (if endsBroken text then spaces indent else []) ++ ['\''])

/-- The digits of a number in upper-case hexadecimal, `width` of them. -/
def hexDigits (width n : Nat) : List Char :=
  (List.range width).reverse.map fun place => ((n / Nat.pow 16 place) % 16).digitChar.toUpper

/-- The letter that stands for a character behind a backslash. -/
def shortEscape? (c : Char) : Option Char :=
  if c = '\x00' then some '0'
  else if c = '\x07' then some 'a'
  else if c = '\x08' then some 'b'
  else if c = '\t' then some 't'
  else if c = '\n' then some 'n'
  else if c = '\x0b' then some 'v'
  else if c = '\x0c' then some 'f'
  else if c = '\x0d' then some 'r'
  else if c = '\x1b' then some 'e'
  else if c = '"' then some '"'
  else if c = '\\' then some '\\'
  else if c = '\u0085' then some 'N'
  else if c = '\u2028' then some 'L'
  else if c = '\u2029' then some 'P'
  else none

/-- A character that has no letter, by its number. -/
def numberEscape (n : Nat) : List Char :=
  if n ≤ 0xFF then 'x' :: hexDigits 2 n
  else if n ≤ 0xFFFF then 'u' :: hexDigits 4 n
  else 'U' :: hexDigits 8 n

def doubleChar (c : Char) : List Char :=
  match shortEscape? c with
  | some letter => ['\\', letter]
  | none => if isPrintable c then [c] else '\\' :: numberEscape c.toNat

def writeDouble (text : List Char) : List Char :=
  '"' :: (text.flatMap doubleChar ++ ['"'])

/-- The digit that fixes a literal block's indentation, where its content does not show
it. -/
def indentationMark (text : List Char) : List Char :=
  match text with
  | c :: _ => if isSpace c || isBreak c then ['2'] else []
  | [] => []

/-- The mark that keeps or drops the breaks at the end of a literal block, unless there is
just one and something in front of it. -/
def chompingMark (text : List Char) : List Char :=
  match text.reverse with
  | c :: rest =>
      if !isBreak c then ['-']
      else
        match rest with
        | d :: _ => if isBreak d then ['+'] else []
        | [] => ['+']
  | [] => ['-']

def writeLiteral (indent : Nat) (text : List Char) : List Char :=
  '|' :: (indentationMark text ++ chompingMark text ++ '\n' ::
    indented indent (fun c => [c]) true text)

/-- A text in its style, with its further lines at an indentation. -/
def write (indent : Nat) (text : String) : List Char :=
  match ofText text with
  | .plain => text.toList
  | .singleQuoted => writeSingle indent text.toList
  | .doubleQuoted => writeDouble text.toList
  | .literal => writeLiteral indent text.toList

end ScalarStyle

end StepGraph.Yaml
