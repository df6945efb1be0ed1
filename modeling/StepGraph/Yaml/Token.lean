/-
Tokens of YAML text.

Nesting by indentation is made explicit: a block collection starts with a
token of its own and ends with `blockEnd`, and `key` stands in front of every
key, also of one that is only recognised by the colon behind it.
-/
import StepGraph.Yaml.Tag

namespace StepGraph.Yaml

/-- A token of YAML text. -/
inductive Token where
  | versionDirective (major minor : Nat)
  | tagDirective (handle stem : TagText)
  | documentStart
  | documentEnd
  | blockSequenceStart
  | blockMappingStart
  | blockEnd
  | flowSequenceStart
  | flowSequenceEnd
  | flowMappingStart
  | flowMappingEnd
  | blockEntry
  | flowEntry
  | key
  | value
  | alias (name : String)
  | anchor (name : String)
  | tag (tag : WrittenTag)
  /-- A scalar's text, and whether it stands there plain. -/
  | scalar (text : String) (plain : Bool)

end StepGraph.Yaml
