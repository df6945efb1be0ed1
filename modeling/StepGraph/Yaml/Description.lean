/-
How a value is described in a message.

A description names the kind of each part.  Texts are quoted, with escapes
for quotes, backslashes and every character that is not visible on its own;
a mapping's keys are bare unless they hold parts themselves.
-/
import StepGraph.Text.Visible
import StepGraph.Yaml.Value

namespace StepGraph.Yaml

def describeChar (c : Char) : List Char :=
  if c = '\x00' then ['\\', '0']
  else if c = '\t' then ['\\', 't']
  else if c = '\n' then ['\\', 'n']
  else if c = '\x0d' then ['\\', 'r']
  else if c = '"' then ['\\', '"']
  else if c = '\\' then ['\\', '\\']
  else if Text.isVisible c then [c]
  else ['\\', 'u', '{'] ++ Nat.toDigits 16 c.toNat ++ ['}']

def describeText (text : String) : String :=
  String.ofList ('"' :: (text.toList.flatMap describeChar ++ ['"']))

namespace Value

/-- A key without the name of its kind, for the kinds that have such a form. -/
def bareKey? : Value → Option String
  | .bool value => some (boolText value)
  | .number value => some value.text
  | .string text => some (describeText text)
  | _ => none

mutual

def describe : Value → String
  | .null => "Null"
  | .bool value => "Bool(" ++ boolText value ++ ")"
  | .number value => "Number(" ++ value.text ++ ")"
  | .string text => "String(" ++ describeText text ++ ")"
  | .sequence items => "Sequence [" ++ String.intercalate ", " (describeItems items) ++ "]"
  | .mapping entries =>
      "Mapping \x7b" ++ String.intercalate ", " (describeEntries entries) ++ "\x7d"
  | .tagged tag value =>
      "TaggedValue \x7b tag: !" ++ tag ++ ", value: " ++ describe value ++ " \x7d"

def describeItems : List Value → List String
  | [] => []
  | item :: rest => describe item :: describeItems rest

def describeEntries : List (Value × Value) → List String
  | [] => []
  | (key, value) :: rest =>
      ((bareKey? key).getD (describe key) ++ ": " ++ describe value) :: describeEntries rest

end

end Value

end StepGraph.Yaml
