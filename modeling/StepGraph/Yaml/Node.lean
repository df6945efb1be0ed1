/-
Nodes of a YAML document, and reading them from tokens.

A node is an alias, a scalar, a sequence or a mapping; all but an alias may
carry an anchor and a tag.  What an alias refers to is left open here: it
holds a name as it is read from tokens.

Between two tokens that it takes, reading goes down three steps at most;
`fuel` counts the steps, so four for each token are enough.
-/
import StepGraph.Yaml.Token

namespace StepGraph.Yaml

/-- The anchor and the tag of a node. -/
structure Properties where
  anchor : Option String := none
  tag : Option Tag := none

/-- A node whose aliases refer to anchors by values of type `ρ`. -/
inductive Node (ρ : Type) where
  | alias (target : ρ)
  /-- A scalar's text, and whether it stands there plain. -/
  | scalar (props : Properties) (text : String) (plain : Bool)
  | sequence (props : Properties) (items : List (Node ρ))
  | mapping (props : Properties) (entries : List (Node ρ × Node ρ))

namespace Node

/-- The node of a place where nothing is written. -/
def empty : Node String := .scalar {} "" true

/-- A node and the tokens behind it. -/
abbrev Read := Option (Node String × List Token)

/-- Nodes and the tokens behind them. -/
abbrev ReadItems := Option (List (Node String) × List Token)

/-- Entries and the tokens behind them. -/
abbrev ReadEntries := Option (List (Node String × Node String) × List Token)

/-- Tag directives in force: handles and what they stand for. -/
abbrev Directives := List (TagText × TagText)

/-- An anchor and a tag in either order, each at most once. -/
def readProperties (directives : Directives) : List Token → Option (Properties × List Token)
  | .anchor name :: .tag tag :: rest
  | .tag tag :: .anchor name :: rest => do
      return (⟨some name, some (← Tag.resolve? directives tag)⟩, rest)
  | .anchor name :: rest => some (⟨some name, none⟩, rest)
  | .tag tag :: rest => do return (⟨none, some (← Tag.resolve? directives tag)⟩, rest)
  | tokens => some ({}, tokens)

/-- Whether nothing is written for an item of a block sequence. -/
def omitsItem : List Token → Bool
  | .blockEntry :: _ | .blockEnd :: _ => true
  | _ => false

/-- Whether nothing is written for a key or a value in a block mapping. -/
def omitsBlockPart : List Token → Bool
  | .key :: _ | .value :: _ | .blockEnd :: _ => true
  | _ => false

/-- Whether nothing is written for an item of a sequence that stands as deep as the keys
around it. -/
def omitsIndentlessItem : List Token → Bool
  | .blockEntry :: _ => true
  | tokens => omitsBlockPart tokens

/-- Whether nothing is written for a key in a flow mapping. -/
def omitsFlowKey : List Token → Bool
  | .value :: _ | .flowEntry :: _ | .flowMappingEnd :: _ => true
  | _ => false

/-- Whether nothing is written for a value in a flow mapping. -/
def omitsFlowValue : List Token → Bool
  | .flowEntry :: _ | .flowMappingEnd :: _ => true
  | _ => false

/-- Whether nothing is written for the key of a pair in a flow sequence. -/
def omitsPairKey : List Token → Bool
  | .value :: _ | .flowEntry :: _ | .flowSequenceEnd :: _ => true
  | _ => false

/-- Whether nothing is written for the value of a pair in a flow sequence. -/
def omitsPairValue : List Token → Bool
  | .flowEntry :: _ | .flowSequenceEnd :: _ => true
  | _ => false

mutual

/-- A node.  Block collections are read only where `block` says so, and a sequence as deep
as the keys around it only where `indentless` does. -/
def read (directives : Directives) (fuel : Nat) (block indentless : Bool)
    (tokens : List Token) : Read :=
  match fuel with
  | 0 => none
  | fuel + 1 =>
      match tokens with
      | .alias name :: rest => some (.alias name, rest)
      | tokens => do
          let (props, tokens) ← readProperties directives tokens
          match tokens, block, indentless with
          | .blockEntry :: _, _, true => do
              let (items, rest) ← readIndentless directives fuel tokens
              return (.sequence props items, rest)
          | .scalar text plain :: rest, _, _ => return (.scalar props text plain, rest)
          | .flowSequenceStart :: rest, _, _ => do
              let (items, rest) ← readFlowItems directives fuel true rest
              return (.sequence props items, rest)
          | .flowMappingStart :: rest, _, _ => do
              let (entries, rest) ← readFlowEntries directives fuel true rest
              return (.mapping props entries, rest)
          | .blockSequenceStart :: rest, true, _ => do
              let (items, rest) ← readBlockItems directives fuel rest
              return (.sequence props items, rest)
          | .blockMappingStart :: rest, true, _ => do
              let (entries, rest) ← readBlockEntries directives fuel rest
              return (.mapping props entries, rest)
          | _, _, _ =>
              if props.anchor.isSome || props.tag.isSome then
                return (.scalar props "" true, tokens)
              else none

/-- A node, or the empty one where nothing is written for it. -/
def readUnless (directives : Directives) (fuel : Nat) (omitted block indentless : Bool)
    (tokens : List Token) : Read :=
  match fuel with
  | 0 => none
  | fuel + 1 =>
      if omitted then some (empty, tokens) else read directives fuel block indentless tokens

def readBlockItems (directives : Directives) (fuel : Nat) (tokens : List Token) : ReadItems :=
  match fuel with
  | 0 => none
  | fuel + 1 =>
      match tokens with
      | .blockEntry :: rest => do
          let (item, rest) ← readUnless directives fuel (omitsItem rest) true false rest
          let (items, rest) ← readBlockItems directives fuel rest
          return (item :: items, rest)
      | .blockEnd :: rest => some ([], rest)
      | _ => none

/-- Items of a sequence as deep as the keys around it. -/
def readIndentless (directives : Directives) (fuel : Nat) (tokens : List Token) : ReadItems :=
  match fuel with
  | 0 => none
  | fuel + 1 =>
      match tokens with
      | .blockEntry :: rest => do
          let (item, rest) ← readUnless directives fuel (omitsIndentlessItem rest) true false rest
          let (items, rest) ← readIndentless directives fuel rest
          return (item :: items, rest)
      | tokens => some ([], tokens)

def readBlockEntries (directives : Directives) (fuel : Nat) (tokens : List Token) :
    ReadEntries :=
  match fuel with
  | 0 => none
  | fuel + 1 =>
      match tokens with
      | .key :: rest => do
          let (key, rest) ← readUnless directives fuel (omitsBlockPart rest) true true rest
          let (value, rest) ← match rest with
            | .value :: rest => readUnless directives fuel (omitsBlockPart rest) true true rest
            | rest => some (empty, rest)
          let (entries, rest) ← readBlockEntries directives fuel rest
          return ((key, value) :: entries, rest)
      | .blockEnd :: rest => some ([], rest)
      | _ => none

/-- Items of a flow sequence and its end; before all but the first there is a comma. -/
def readFlowItems (directives : Directives) (fuel : Nat) (first : Bool) (tokens : List Token) :
    ReadItems :=
  match fuel with
  | 0 => none
  | fuel + 1 =>
      match tokens with
      | .flowSequenceEnd :: rest => some ([], rest)
      | tokens => do
          let tokens ← match first, tokens with
            | true, tokens => some tokens
            | false, .flowEntry :: rest => some rest
            | false, _ => none
          match tokens with
          | .key :: rest => do
              let (item, rest) ← readPair directives fuel rest
              let (items, rest) ← readFlowItems directives fuel false rest
              return (item :: items, rest)
          | .flowSequenceEnd :: rest => return ([], rest)
          | tokens => do
              let (item, rest) ← read directives fuel false false tokens
              let (items, rest) ← readFlowItems directives fuel false rest
              return (item :: items, rest)

/-- A pair in a flow sequence, which makes a mapping of one entry.  Where nothing is
written for its key, the token that shows it is passed over. -/
def readPair (directives : Directives) (fuel : Nat) (tokens : List Token) : Read :=
  match fuel with
  | 0 => none
  | fuel + 1 => do
      let (key, rest) ←
        if omitsPairKey tokens then some (empty, tokens.drop 1)
        else readUnless directives fuel false false false tokens
      let (value, rest) ← match rest with
        | .value :: rest => readUnless directives fuel (omitsPairValue rest) false false rest
        | rest => some (empty, rest)
      return (.mapping {} [(key, value)], rest)

/-- Entries of a flow mapping and its end; before all but the first there is a comma. -/
def readFlowEntries (directives : Directives) (fuel : Nat) (first : Bool)
    (tokens : List Token) : ReadEntries :=
  match fuel with
  | 0 => none
  | fuel + 1 =>
      match tokens with
      | .flowMappingEnd :: rest => some ([], rest)
      | tokens => do
          let tokens ← match first, tokens with
            | true, tokens => some tokens
            | false, .flowEntry :: rest => some rest
            | false, _ => none
          match tokens with
          | .key :: rest => do
              let (key, rest) ← readUnless directives fuel (omitsFlowKey rest) false false rest
              let (value, rest) ← match rest with
                | .value :: rest =>
                    readUnless directives fuel (omitsFlowValue rest) false false rest
                | rest => some (empty, rest)
              let (entries, rest) ← readFlowEntries directives fuel false rest
              return ((key, value) :: entries, rest)
          | .flowMappingEnd :: rest => return ([], rest)
          | tokens => do
              let (key, rest) ← read directives fuel false false tokens
              let (entries, rest) ← readFlowEntries directives fuel false rest
              return ((key, empty) :: entries, rest)

end

/-- The tag directives at the start of a document and the tokens behind all directives.
There may be one version directive, of version 1.1 or 1.2, and one directive for a
handle. -/
def readDirectives : Bool → Directives → List Token → Option (Directives × List Token)
  | versioned, directives, .versionDirective major minor :: rest =>
      if !versioned && major = 1 && (minor = 1 || minor = 2) then
        readDirectives true directives rest
      else none
  | versioned, directives, .tagDirective handle stem :: rest =>
      if directives.any fun directive => directive.1 = handle then none
      else readDirectives versioned (directives ++ [(handle, stem)]) rest
  | _, directives, tokens => some (directives, tokens)

/-- Whether the tokens hold no more than ends of documents. -/
def endsStream (tokens : List Token) : Bool :=
  tokens.all fun
    | .documentEnd => true
    | _ => false

/-- Whether nothing is written between the markers of a document. -/
def omitsDocument : List Token → Bool
  | [] | .documentStart :: _ | .documentEnd :: _ | .versionDirective _ _ :: _
  | .tagDirective _ _ :: _ => true
  | _ => false

/-- The node of the one document that tokens hold; the inner option is none when there is
no document at all. -/
def ofTokens? (tokens : List Token) : Option (Option (Node String)) := do
  let fuel := 4 * tokens.length + 4
  match tokens with
  | [] => return none
  | .versionDirective _ _ :: _ | .tagDirective _ _ :: _ | .documentStart :: _ => do
      let (directives, rest) ← readDirectives false [] tokens
      match rest with
      | .documentStart :: rest => do
          let (node, rest) ← readUnless directives fuel (omitsDocument rest) true false rest
          if endsStream rest then return some node else none
      | _ => none
  | tokens => do
      let (node, rest) ← read [] fuel true false tokens
      if endsStream rest then return some node else none

end Node

end StepGraph.Yaml
