/-
JSON text of a document.

`Json.compact` writes no blanks at all; `Json.pretty` indents by two spaces
and keeps empty containers on one line.  Both write text raw except for the
two characters that would end or escape it and the control characters, and a
double with the sign of a positive exponent.
-/
import StepGraph.Document
import StepGraph.Decimal.NumberStyle

namespace StepGraph.Json

/-- Doubles carry the sign of a positive exponent. -/
def numberStyle : NumberStyle := ⟨true⟩

def number : Number → String
  | .int value => NumberStyle.integer value
  | .double value => numberStyle.double value

/-- A digit of a lower-case hexadecimal number. -/
def hexDigit (n : Nat) : Char := Nat.digitChar n

def escape (c : Char) : List Char :=
  if c = '"' then ['\\', '"']
  else if c = '\\' then ['\\', '\\']
  else if c = '\x08' then ['\\', 'b']
  else if c = '\x0c' then ['\\', 'f']
  else if c = '\n' then ['\\', 'n']
  else if c = '\x0d' then ['\\', 'r']
  else if c = '\t' then ['\\', 't']
  else if c.toNat < 32 then ['\\', 'u', '0', '0', hexDigit (c.toNat / 16), hexDigit (c.toNat % 16)]
  else [c]

def quote (text : String) : String :=
  String.ofList ('"' :: (text.toList.flatMap escape ++ ['"']))

mutual

def compact : Document → String
  | .null => "null"
  | .bool value => boolText value
  | .number value => number value
  | .string text => quote text
  | .list items => "[" ++ compactItems items ++ "]"
  | .object fields => "\x7b" ++ compactFields fields ++ "\x7d"

/-- The items of a list, with commas between them. -/
def compactItems : List Document → String
  | [] => ""
  | [item] => compact item
  | item :: rest => compact item ++ "," ++ compactItems rest

/-- The fields of an object, with commas between them. -/
def compactFields : List (String × Document) → String
  | [] => ""
  | [(name, value)] => quote name ++ ":" ++ compact value
  | (name, value) :: rest => quote name ++ ":" ++ compact value ++ "," ++ compactFields rest

end

/-- A line break and the indentation of a nesting level. -/
def newline (level : Nat) : String := String.ofList ('\n' :: List.replicate (2 * level) ' ')

mutual

/-- A document with one item or field a line, at a nesting level. -/
def prettyAt (level : Nat) : Document → String
  | .null => "null"
  | .bool value => boolText value
  | .number value => number value
  | .string text => quote text
  | .list [] => "[]"
  | .list (item :: rest) =>
      "[" ++ newline (level + 1) ++ prettyAt (level + 1) item ++ prettyItems (level + 1) rest ++
        newline level ++ "]"
  | .object [] => "\x7b\x7d"
  | .object ((name, value) :: rest) =>
      "\x7b" ++ newline (level + 1) ++ quote name ++ ": " ++ prettyAt (level + 1) value ++
        prettyFields (level + 1) rest ++ newline level ++ "\x7d"

def prettyItems (level : Nat) : List Document → String
  | [] => ""
  | item :: rest => "," ++ newline level ++ prettyAt level item ++ prettyItems level rest

def prettyFields (level : Nat) : List (String × Document) → String
  | [] => ""
  | (name, value) :: rest =>
      "," ++ newline level ++ quote name ++ ": " ++ prettyAt level value ++
        prettyFields level rest

end

def pretty (document : Document) : String := prettyAt 0 document

end StepGraph.Json
