/-
From nodes to values: anchors and aliases.

In a first pass every anchor gets a number and every alias the number that
its name has at that place.  The number is the count of different names so
far, so a name that is given a second time may come to share its number with
the next new name; a number stands for the node that got it last.

In the second pass aliases are replaced by what they stand for.  Collections
nest at most 128 deep, also through aliases, which rules out a node that
contains itself; and the number of replacements is bounded by the size of
the document, which rules out expansions that explode.
-/
import StepGraph.Yaml.Lexer
import StepGraph.Yaml.Node
import StepGraph.Yaml.Scalar

namespace StepGraph.Yaml

/-! ### Numbering anchors -/

/-- A numbered part of a document. -/
structure Numbered (α : Type) where
  part : α
  /-- The numbers of the names that are known behind it. -/
  known : Fields Nat
  /-- The anchored nodes in it with their numbers, in the order in which they start. -/
  anchored : List (Nat × Node Nat)

/-- The number of a node's anchor, and the names known from there on. -/
def Properties.number (props : Properties) (known : Fields Nat) : Option Nat × Fields Nat :=
  match props.anchor with
  | none => (none, known)
  | some name => (some known.length, known.insert name known.length)

/-- Completes a collection whose content was numbered. -/
def Numbered.close {α : Type} (content : Numbered α) (number : Option Nat)
    (node : α → Node Nat) : Numbered (Node Nat) :=
  let done := node content.part
  { part := done
    known := content.known
    anchored := (number.map (·, done)).toList ++ content.anchored }

namespace Node

mutual

/-- Numbers the anchors of a node; none if an alias has no anchor in front of it. -/
def number (known : Fields Nat) : Node String → Option (Numbered (Node Nat))
  | .alias name => (known.get? name).map fun target => ⟨.alias target, known, []⟩
  | .scalar props text plain =>
      let (id, known) := props.number known
      some ((Numbered.mk () known []).close id fun _ => .scalar props text plain)
  | .sequence props items => do
      let (id, known) := props.number known
      return (← numberItems known items).close id (.sequence props)
  | .mapping props entries => do
      let (id, known) := props.number known
      return (← numberEntries known entries).close id (.mapping props)

def numberItems (known : Fields Nat) : List (Node String) → Option (Numbered (List (Node Nat)))
  | [] => some ⟨[], known, []⟩
  | item :: rest => do
      let first ← number known item
      let others ← numberItems first.known rest
      return ⟨first.part :: others.part, others.known, first.anchored ++ others.anchored⟩

/-- Numbers the anchors of entries, each key before its value. -/
def numberEntries (known : Fields Nat) :
    List (Node String × Node String) → Option (Numbered (List (Node Nat × Node Nat)))
  | [] => some ⟨[], known, []⟩
  | (key, value) :: rest => do
      let key ← number known key
      let value ← number key.known value
      let others ← numberEntries value.known rest
      return ⟨(key.part, value.part) :: others.part, others.known,
        key.anchored ++ value.anchored ++ others.anchored⟩

end

/-! ### Replacing aliases -/

variable {ρ : Type}

mutual

/-- The size of a node; a collection counts for its two ends. -/
def size : Node ρ → Nat
  | .alias _ => 1
  | .scalar _ _ _ => 1
  | .sequence _ items => 2 + sizeItems items
  | .mapping _ entries => 2 + sizeEntries entries

def sizeItems : List (Node ρ) → Nat
  | [] => 0
  | item :: rest => size item + sizeItems rest

def sizeEntries : List (Node ρ × Node ρ) → Nat
  | [] => 0
  | (key, value) :: rest => size key + size value + sizeEntries rest

end

def maxNesting : Nat := 128

/-- A computation that may fail, with a number of aliases that it may still replace. -/
abbrev Replacing := StateT Nat Option

/-- The node that an alias stands for; other nodes stand for themselves. -/
def follow (anchored : List (Nat × Node Nat)) : Node Nat → Replacing (Node Nat)
  | .alias target, left + 1 =>
      (anchored.reverse.find? fun node => node.1 = target).map fun node => (node.2, left)
  | .alias _, 0 => none
  | node, left => some (node, left)

/-- The value of a collection: a short tag stays, any other tag says nothing. -/
def withTag (props : Properties) (value : Value) : Value :=
  match props.tag with
  | some (.short name) => .tagged name value
  | _ => value

/-- The value of a node, with `room` for that many nested collections.  The keys of a
mapping must be different. -/
def value (anchored : List (Nat × Node Nat)) : Nat → Node Nat → Replacing Value
  | _, .alias _ => fun _ => none
  | _, .scalar props text plain => fun left =>
      (Scalar.value? props.tag text plain).map (·, left)
  | 0, _ => fun _ => none
  | room + 1, .sequence props items => do
      let values ← items.mapM fun item => do value anchored room (← follow anchored item)
      return withTag props (.sequence values)
  | room + 1, .mapping props entries => do
      let values ← entries.mapM fun (key, content) => do
        let key ← value anchored room (← follow anchored key)
        let content ← value anchored room (← follow anchored content)
        return (key, content)
      if Value.distinctKeys values then return withTag props (.mapping values)
      else fun _ => none

def value? (node : Node String) : Option Value := do
  let numbered ← number [] node
  let (result, _) ← value numbered.anchored maxNesting numbered.part (100 * node.size)
  return result

end Node

/-- The value that YAML text holds; a text without a document holds null. -/
def parse? (text : String) : Option Value := do
  match ← Node.ofTokens? (← tokens? text) with
  | none => return .null
  | some node => node.value?

end StepGraph.Yaml
