/-
YAML text of a document.

Collections are written in block style with two spaces for each level, but
the items of a list that is a field's value stand as deep as the field.
Empty collections are written in flow style.  A name that is too long or has
line breaks is written behind a question mark.
-/
import StepGraph.Yaml.ScalarStyle

namespace StepGraph.Yaml

open ScalarStyle (spaces endsBroken)

/-- The longest name, in bytes, that is written without a question mark. -/
def maxNameSize : Nat := 128

/-- Whether a name is written right before its colon. -/
def isSimpleName (name : String) : Bool :=
  name.utf8ByteSize ≤ maxNameSize && !name.toList.any isBreak

/-- Text with a line break at its end, where it has none yet. -/
def endLine (text : List Char) : List Char :=
  if endsBroken text then text else text ++ ['\n']

/-- A document that is written without a line of its own. -/
def scalarText (indent : Nat) : Document → List Char
  | .null => ['n', 'u', 'l', 'l']
  | .bool value => (boolText value).toList
  | .number value => (Numeral.finiteText value).toList
  | .string text => ScalarStyle.write indent text
  | .list _ => ['[', ']']
  | .object _ => ['{', '}']

mutual

/-- A document behind a mark on the same line, with its further lines at an indentation. -/
def writeInline (indent : Nat) : Document → List Char
  | .list (item :: rest) => writeItems indent (item :: rest)
  | .object (field :: rest) => writeFields indent (field :: rest)
  | document => scalarText indent document

/-- The value of a field that stands at an indentation, behind the field's colon. -/
def writeValue (indent : Nat) : Document → List Char
  | .list (item :: rest) => '\n' :: (spaces indent ++ writeItems indent (item :: rest))
  | .object (field :: rest) =>
      '\n' :: (spaces (indent + 2) ++ writeFields (indent + 2) (field :: rest))
  | document => ' ' :: scalarText (indent + 2) document

/-- The items of a list, the first one on the same line. -/
def writeItems (indent : Nat) : List Document → List Char
  | [] => []
  | [item] => '-' :: ' ' :: writeInline (indent + 2) item
  | item :: rest =>
      endLine ('-' :: ' ' :: writeInline (indent + 2) item) ++ spaces indent ++
        writeItems indent rest

def writeField (indent : Nat) : String × Document → List Char
  | (name, value) =>
      if isSimpleName name then
        ScalarStyle.write (indent + 2) name ++ ':' :: writeValue indent value
      else
        endLine ('?' :: ' ' :: ScalarStyle.write (indent + 2) name) ++ spaces indent ++
          ':' :: ' ' :: writeInline (indent + 2) value

/-- The fields of an object, the first one on the same line. -/
def writeFields (indent : Nat) : List (String × Document) → List Char
  | [] => []
  | [field] => writeField indent field
  | field :: rest =>
      endLine (writeField indent field) ++ spaces indent ++ writeFields indent rest

end

def render (document : Document) : String :=
  match document with
  | .list (_ :: _) | .object (_ :: _) => String.ofList (endLine (writeInline 0 document))
  | _ => String.ofList (endLine (scalarText 2 document))

end StepGraph.Yaml
