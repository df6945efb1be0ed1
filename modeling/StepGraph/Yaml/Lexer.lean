/-
From YAML text to its tokens.

The lexer keeps the columns of the open block collections and, for every open
flow collection and the block around them, the place where the key of a
mapping may have started.  When the colon behind a key turns up, the tokens
that mark the key are put in front of it.  A key that is only recognised in
this way has to stand on one line and within 1024 bytes.
-/
import StepGraph.Yaml.Property
import StepGraph.Yaml.QuotedScalar
import StepGraph.Yaml.PlainScalar
import StepGraph.Yaml.BlockScalar

namespace StepGraph.Yaml

/-- A place where a key may have started. -/
structure PossibleKey where
  /-- The number of tokens in front of it. -/
  place : Nat
  /-- Whether there is an error unless it turns out to be a key. -/
  required : Bool
  offset : Nat
  line : Nat
  column : Nat

/-- The lexer's state. -/
structure Lexer where
  pos : Cursor
  /-- The tokens so far, last first. -/
  tokens : List Token := []
  count : Nat := 0
  /-- The column of the innermost block collection, `-1` outside of any. -/
  indent : Int := -1
  outerIndents : List Int := []
  /-- The possible key of the innermost flow collection or of the block around all. -/
  possibleKey : Option PossibleKey := none
  /-- The possible keys further out, one for each open flow collection. -/
  outerKeys : List (Option PossibleKey) := []
  /-- Whether a key may start here. -/
  keyAllowed : Bool := true

namespace Lexer

def inFlow (l : Lexer) : Bool := !l.outerKeys.isEmpty

def push (l : Lexer) (token : Token) : Lexer :=
  { l with tokens := token :: l.tokens, count := l.count + 1 }

/-- Puts a token behind the first `place` ones. -/
def insertAt (l : Lexer) (place : Nat) (token : Token) : Lexer :=
  let later := l.count - place
  { l with
    tokens := l.tokens.take later ++ token :: l.tokens.drop later, count := l.count + 1 }

def advance (l : Lexer) (count : Nat) : Lexer := { l with pos := l.pos.advance count }

/-- Moves over blanks, comments and line breaks, and over the byte order mark that a line may
start with, which takes a column.  A tab is no blank where a key may start outside of flow
collections; behind a line break one may. -/
def toNextToken : Nat → Lexer → Lexer
  | 0, l => l
  | fuel + 1, l =>
      let pos := if l.pos.column = 0 ∧ l.pos.rest.head? = some byteOrderMark then l.pos.advance 1
        else l.pos
      let tabs := l.inFlow || !l.keyAllowed
      let pos := pos.skipWhile fun c => c = ' ' || (tabs && c = '\t')
      let pos := match pos.rest with
        | '#' :: _ => pos.skipWhile fun c => !isBreak c
        | _ => pos
      match pos.rest with
      | c :: _ =>
          if isBreak c then
            toNextToken fuel
              { l with pos := pos.takeBreak.2, keyAllowed := l.keyAllowed || !l.inFlow }
          else { l with pos }
      | [] => { l with pos }

/-- Whether a possible key has been left behind. -/
def isStale (pos : Cursor) (key : PossibleKey) : Bool :=
  key.line < pos.line || key.offset + 1024 < pos.offset

/-- A possible key unless it has been left behind; none if it was required. -/
def refresh (pos : Cursor) : Option PossibleKey → Option (Option PossibleKey)
  | some key =>
      if isStale pos key then (if key.required then none else some none) else some (some key)
  | none => some none

/-- Gives up the possible keys that have been left behind. -/
def dropStale (l : Lexer) : Option Lexer := do
  return { l with
    possibleKey := ← refresh l.pos l.possibleKey
    outerKeys := ← l.outerKeys.mapM (refresh l.pos) }

/-- Gives up the innermost possible key; none if it was required. -/
def dropKey (l : Lexer) : Option Lexer :=
  match l.possibleKey with
  | some key => if key.required then none else some { l with possibleKey := none }
  | none => some l

def saveKey (l : Lexer) : Option Lexer :=
  if l.keyAllowed then do
    let l ← l.dropKey
    let key : PossibleKey :=
      { place := l.count
        required := !l.inFlow && l.indent = l.pos.column
        offset := l.pos.offset
        line := l.pos.line
        column := l.pos.column }
    return { l with possibleKey := some key }
  else some l

/-- Opens a block collection at a column, with its first token behind the first `place`
ones, unless one is open there. -/
def openBlock (l : Lexer) (column place : Nat) (token : Token) : Lexer :=
  if !l.inFlow && l.indent < column then
    { l with indent := column, outerIndents := l.indent :: l.outerIndents }.insertAt place token
  else l

/-- Closes the block collections to the right of a column. -/
def closeBlocks (l : Lexer) (column : Int) : Lexer :=
  if l.inFlow then l else go l.outerIndents l
where
  /-- Closes as many of the collections around as needed. -/
  go : List Int → Lexer → Lexer
    | [], l => l
    | outer :: rest, l =>
        if column < l.indent then
          go rest { l.push .blockEnd with indent := outer, outerIndents := rest }
        else l

/-- A directive or a marker between documents ends all that is open in block style. -/
def endBlocks (l : Lexer) : Option Lexer := do
  let l ← (l.closeBlocks (-1)).dropKey
  return { l with keyAllowed := false }

def readMarker (l : Lexer) (token : Token) : Option Lexer := do
  let l ← l.endBlocks
  return (l.advance 3).push token

def readDirective (l : Lexer) : Option Lexer := do
  let l ← l.endBlocks
  let (token, pos) ← Property.readDirective l.pos
  return { l with pos }.push token

/-- The opening bracket of a flow collection, which may itself start a key. -/
def readFlowStart (l : Lexer) (token : Token) : Option Lexer := do
  let l ← l.saveKey
  return { l with
    possibleKey := none
    outerKeys := l.possibleKey :: l.outerKeys
    keyAllowed := true
    pos := l.pos.advance 1 }.push token

def readFlowEnd (l : Lexer) (token : Token) : Option Lexer := do
  let l ← l.dropKey
  let l := match l.outerKeys with
    | key :: keys => { l with possibleKey := key, outerKeys := keys }
    | [] => l
  return { l with keyAllowed := false, pos := l.pos.advance 1 }.push token

def readFlowEntry (l : Lexer) : Option Lexer := do
  let l ← l.dropKey
  return { l with keyAllowed := true, pos := l.pos.advance 1 }.push .flowEntry

def readBlockEntry (l : Lexer) : Option Lexer :=
  if !l.inFlow && !l.keyAllowed then none
  else do
    let l ← (l.openBlock l.pos.column l.count .blockSequenceStart).dropKey
    return { l with keyAllowed := true, pos := l.pos.advance 1 }.push .blockEntry

def readKey (l : Lexer) : Option Lexer :=
  if !l.inFlow && !l.keyAllowed then none
  else do
    let l ← (l.openBlock l.pos.column l.count .blockMappingStart).dropKey
    return { l with keyAllowed := !l.inFlow, pos := l.pos.advance 1 }.push .key

/-- The colon behind a key, or in front of the value of a key without text. -/
def readValue (l : Lexer) : Option Lexer :=
  match l.possibleKey with
  | some key =>
      let l := l.insertAt key.place .key
      let l := l.openBlock key.column key.place .blockMappingStart
      some ({ l with possibleKey := none, keyAllowed := false }.advance 1 |>.push .value)
  | none =>
      if !l.inFlow && !l.keyAllowed then none
      else
        let l := l.openBlock l.pos.column l.count .blockMappingStart
        some ({ l with keyAllowed := !l.inFlow }.advance 1 |>.push .value)

def readAnchor (l : Lexer) (token : String → Token) : Option Lexer := do
  let l ← l.saveKey
  let (name, pos) ← Property.readName l.pos
  return { l with pos, keyAllowed := false }.push (token name)

def readTag (l : Lexer) : Option Lexer := do
  let l ← l.saveKey
  let (tag, pos) ← Property.readTag l.inFlow l.pos
  return { l with pos, keyAllowed := false }.push (.tag tag)

/-- A block scalar, behind which a key may start. -/
def readBlockScalar (l : Lexer) (literal : Bool) : Option Lexer := do
  let l ← l.dropKey
  let (text, pos) ← BlockScalar.read literal l.indent l.pos
  return { l with pos, keyAllowed := true }.push (.scalar (String.ofList text) false)

def readQuoted (l : Lexer) (quote : QuotedScalar.Quote) : Option Lexer := do
  let l ← l.saveKey
  let (text, pos) ← QuotedScalar.read quote l.pos
  return { l with pos, keyAllowed := false }.push (.scalar (String.ofList text) false)

/-- A plain scalar; behind a line break a key may start. -/
def readPlain (l : Lexer) : Option Lexer := do
  let l ← l.saveKey
  let (text, broken, pos) ← PlainScalar.read l.inFlow (l.indent + 1) l.pos
  return { l with pos, keyAllowed := broken }.push (.scalar (String.ofList text) true)

/-- Whether a plain scalar may start with the character in front of the text. -/
def startsPlain (flow : Bool) (c : Char) (rest : List Char) : Bool :=
  !(isBlank c || isBreak c || isIndicator c) ||
    (c = '-' && !(rest.head?.map isBlank).getD false) ||
    (!flow && (c = '?' || c = ':') && !atGapOrEnd rest)

def readToken (l : Lexer) (c : Char) (rest : List Char) : Option Lexer :=
  if l.pos.column = 0 && c = '%' then l.readDirective
  else if l.pos.column = 0 && atDocumentMarker (c :: rest) then
    l.readMarker (if c = '-' then .documentStart else .documentEnd)
  else if c = '[' then l.readFlowStart .flowSequenceStart
  else if c = '{' then l.readFlowStart .flowMappingStart
  else if c = ']' then l.readFlowEnd .flowSequenceEnd
  else if c = '}' then l.readFlowEnd .flowMappingEnd
  else if c = ',' then l.readFlowEntry
  else if c = '-' && atGapOrEnd rest then l.readBlockEntry
  else if c = '?' && (l.inFlow || atGapOrEnd rest) then l.readKey
  else if c = ':' && (l.inFlow || atGapOrEnd rest) then l.readValue
  else if c = '*' then l.readAnchor .alias
  else if c = '&' then l.readAnchor .anchor
  else if c = '!' then l.readTag
  else if c = '|' && !l.inFlow then l.readBlockScalar true
  else if c = '>' && !l.inFlow then l.readBlockScalar false
  else if c = '\'' then l.readQuoted .single
  else if c = '"' then l.readQuoted .double
  else if startsPlain l.inFlow c rest then l.readPlain
  else none

def finish (l : Lexer) : Option (List Token) := do
  let l ← (l.closeBlocks (-1)).dropKey
  return l.tokens.reverse

def run : Nat → Lexer → Option (List Token)
  | 0, _ => none
  | fuel + 1, l => do
      let l ← (toNextToken (fuel + 1) l).dropStale
      let l := l.closeBlocks l.pos.column
      match l.pos.rest with
      | [] => l.finish
      | c :: rest => do run fuel (← l.readToken c rest)

end Lexer

/-- The tokens of a text, none if it is no YAML.  Every token takes at least one
character. -/
def tokens? (text : String) : Option (List Token) :=
  let chars := text.toList
  if chars.all isAllowed then Lexer.run (chars.length + 1) { pos := { rest := chars } } else none

end StepGraph.Yaml
