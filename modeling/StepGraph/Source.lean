/-
Reading documents from source text and from files.

A file whose name ends in `.json` holds JSON text, any other YAML.
-/
import StepGraph.Json.Reader
import StepGraph.Yaml.Anchors
import StepGraph.Yaml.Conversion

namespace StepGraph.Source

/-- A format of source text. -/
inductive Format where
  | json
  | yaml
deriving DecidableEq

/-- The name of a format. -/
def Format.text : Format → String
  | .json => "json"
  | .yaml => "yaml"

/-- What can be wrong with source text or with reading it from a file. -/
inductive Fault where
  /-- The text is no JSON. -/
  | json
  /-- The text is no YAML. -/
  | yaml
  /-- The text is YAML, but no document tree. -/
  | obstacle (obstacle : Yaml.Obstacle)
  /-- The file is missing or holds no text. -/
  | unreadable (path : String)

/-- The short tags that are understood, with their marks. -/
def knownTags : String :=
  String.intercalate ", " (Intrinsic.all.map fun function => "!" ++ function.tag)

/-- The wording of what a tree cannot hold. -/
def unsupported (value : String) : String :=
  "YAML value " ++ value ++ " cannot be represented in a document tree"

/-- The wording of a fault. -/
def Fault.message : Fault → String
  | .json => "Failed to parse JSON document"
  | .yaml => "Failed to parse YAML document"
  | .obstacle (.unknownTag name) =>
      let bare := String.ofList (name.toList.dropWhile (· = '!'))
      "Unknown YAML tag '!" ++ bare ++ "'; supported tags are " ++ knownTags
  | .obstacle (.unbounded number) => unsupported number.text
  | .obstacle (.compoundKey key) => unsupported (key.describe ++ " (as a mapping key)")
  | .unreadable path => "Could not read '" ++ path ++ "'"

/-- The document that a text holds. -/
def parse (format : Format) (text : String) : Except Fault Document :=
  match format with
  | .json =>
      match Json.parse? text with
      | some document => .ok document
      | none => .error .json
  | .yaml =>
      match Yaml.parse? text with
      | some value => value.toDocument.mapError .obstacle
      | none => .error .yaml

/-! ### Files -/

/-- The last part of a path that names something, empty parts and `.` apart. -/
def lastPart (path : String) : List Char :=
  let parts := path.toList.splitOn '/'
  ((parts.filter fun part => !part.isEmpty && part ≠ ['.']).getLast?).getD []

/-- What stands behind the last dot of a file name that does not start with this dot. -/
def extension? (name : List Char) : Option (List Char) :=
  if name = ['.', '.'] then none
  else
    let tail := name.reverse.takeWhile (· ≠ '.')
    if tail.length + 1 < name.length then some tail.reverse else none

/-- The format of a file, by its extension in either case. -/
def Format.ofPath (path : String) : Format :=
  match extension? (lastPart path) with
  | some tail => if tail.map Char.toLower = ['j', 's', 'o', 'n'] then .json else .yaml
  | none => .yaml

/-- The document in a file, given the bytes in it if it is there. -/
def load (path : String) (contents : Option ByteArray) : Except Fault Document :=
  match contents.bind String.fromUTF8? with
  | some text => parse (.ofPath path) text
  | none => .error (.unreadable path)

end StepGraph.Source
