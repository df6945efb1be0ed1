/-
Classes of characters in YAML text.
-/
import StepGraph.Text.Digit

namespace StepGraph.Yaml

open StepGraph.Text (isDigit)

/-- A character that may stand in YAML text at all. -/
def isAllowed (c : Char) : Bool :=
  let n := c.toNat
  n = 0x09 || n = 0x0A || n = 0x0D || (0x20 ≤ n && n ≤ 0x7E) || n = 0x85 ||
    (0xA0 ≤ n && n ≤ 0xFFFD) || 0x10000 ≤ n

def byteOrderMark : Char := '\ufeff'

def isBlank (c : Char) : Bool := c = ' ' || c = '\t'

/-- A line break; a carriage return and a line feed after it make one break. -/
def isBreak (c : Char) : Bool :=
  c = '\n' || c = '\x0d' || c = '\u0085' || c = '\u2028' || c = '\u2029'

/-- A character of a name: an ASCII letter, a digit, `-` or `_`. -/
def isWord (c : Char) : Bool :=
  isDigit c || ('a' ≤ c && c ≤ 'z') || ('A' ≤ c && c ≤ 'Z') || c = '-' || c = '_'

/-- A character that opens or closes a flow collection or separates its items. -/
def isFlowIndicator (c : Char) : Bool :=
  c = ',' || c = '[' || c = ']' || c = '{' || c = '}'

/-- A character that never starts a plain scalar, or does so only with another
character behind it. -/
def isIndicator (c : Char) : Bool :=
  isFlowIndicator c || c = '-' || c = '?' || c = ':' || c = '#' || c = '&' || c = '*' ||
    c = '!' || c = '|' || c = '>' || c = '\'' || c = '"' || c = '%' || c = '@' || c = '\x60'

/-- Whether the text is at its end or at a line break. -/
def atBreakOrEnd : List Char → Bool
  | [] => true
  | c :: _ => isBreak c

/-- Whether the text is at its end, a blank or a line break. -/
def atGapOrEnd : List Char → Bool
  | [] => true
  | c :: _ => isBlank c || isBreak c

/-- Whether the text starts with a marker between documents: three dashes or three dots
and then a gap. -/
def atDocumentMarker : List Char → Bool
  | '-' :: '-' :: '-' :: rest => atGapOrEnd rest
  | '.' :: '.' :: '.' :: rest => atGapOrEnd rest
  | _ => false

end StepGraph.Yaml
