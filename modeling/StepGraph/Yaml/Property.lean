/-
Reading anchors, aliases, tags and directives.
-/
import StepGraph.Yaml.Token
import StepGraph.Yaml.Cursor

namespace StepGraph.Yaml.Property

open StepGraph.Text (isDigit digitValue hexValue?)

/-! ### Anchors -/

/-- Whether the character may stand right behind the name of an anchor. -/
def endsName (text : List Char) : Bool :=
  atGapOrEnd text ||
    match text with
    | c :: _ =>
        c = '?' || c = ':' || c = ',' || c = ']' || c = '}' || c = '%' || c = '@' || c = '\x60'
    | [] => true

/-- The name behind the mark of an anchor or an alias. -/
def readName (pos : Cursor) : Option (String × Cursor) :=
  let pos := pos.advance 1
  let name := pos.rest.takeWhile isWord
  let pos := pos.advance name.length
  if name.isEmpty || !endsName pos.rest then none else some (String.ofList name, pos)

/-! ### Tags -/

def toBytes (cs : List Char) : TagText := Tag.bytes (String.ofList cs)

/-- The number of bytes of a UTF-8 character that starts with the byte. -/
def sequenceLength? (byte : UInt8) : Option Nat :=
  if byte &&& 0x80 = 0 then some 1
  else if byte &&& 0xE0 = 0xC0 then some 2
  else if byte &&& 0xF0 = 0xE0 then some 3
  else if byte &&& 0xF8 = 0xF0 then some 4
  else none

/-- A byte written as `%` and two hexadecimal digits. -/
def readByte : List Char → Option UInt8
  | '%' :: high :: low :: _ => do
      return UInt8.ofNat ((← hexValue? high) * 16 + (← hexValue? low))
  | _ => none

/-- `count` more escaped bytes of a character. -/
def readTail : Nat → Cursor → Option (TagText × Cursor)
  | 0, pos => some ([], pos)
  | count + 1, pos => do
      let byte ← readByte pos.rest
      if byte &&& 0xC0 = 0x80 then
        let (bytes, pos) ← readTail count (pos.advance 3)
        return (byte :: bytes, pos)
      else none

def readEscapes (pos : Cursor) : Option (TagText × Cursor) := do
  let byte ← readByte pos.rest
  let length ← sequenceLength? byte
  let (bytes, pos) ← readTail (length - 1) (pos.advance 3)
  return (byte :: bytes, pos)

/-- A character of a tag; the brackets and the comma only between angle brackets and in
directives. -/
def isTagChar (verbatim : Bool) (c : Char) : Bool :=
  isWord c || c = ';' || c = '/' || c = '?' || c = ':' || c = '@' || c = '&' || c = '=' ||
    c = '+' || c = '$' || c = '.' || c = '%' || c = '!' || c = '~' || c = '*' || c = '\'' ||
    c = '(' || c = ')' || (verbatim && (c = ',' || c = '[' || c = ']'))

/-- The bytes of a tag up to a character that belongs to none. -/
def readTagChars (verbatim : Bool) : Nat → Cursor → Option (TagText × Cursor)
  | 0, pos => some ([], pos)
  | fuel + 1, pos =>
      match pos.rest with
      | [] => some ([], pos)
      | c :: _ =>
          if isTagChar verbatim c then do
            let (bytes, pos) ←
              if c = '%' then readEscapes pos else some (toBytes [c], pos.advance 1)
            let (more, pos) ← readTagChars verbatim fuel pos
            return (bytes ++ more, pos)
          else some ([], pos)

/-- The bytes of a tag up to its end, or up to a zero byte among them. -/
def readTagText (verbatim : Bool) (pos : Cursor) : Option (TagText × Cursor) :=
  (readTagChars verbatim pos.rest.length pos).map fun (bytes, pos) =>
    (bytes.takeWhile (· ≠ 0), pos)

/-- A handle: a mark, a name that may be empty, and a second mark unless that is
missing. -/
def readHandle (pos : Cursor) : Option (List Char × Cursor) :=
  match pos.rest with
  | '!' :: rest =>
      let name := rest.takeWhile isWord
      let closed := match rest.drop name.length with
        | '!' :: _ => ['!']
        | _ => []
      let handle := '!' :: (name ++ closed)
      some (handle, pos.advance handle.length)
  | _ => none

def readShorthand (pos : Cursor) : Option (WrittenTag × Cursor) := do
  let (handle, behind) ← readHandle pos
  if 1 < handle.length && handle.getLast? = some '!' then
    if (behind.rest.head?.map (isTagChar false)).getD false then
      let (suffix, pos) ← readTagText false behind
      return (⟨toBytes handle, suffix⟩, pos)
    else none
  else
    let (more, pos) ← readTagText false behind
    let suffix := toBytes (handle.drop 1) ++ more
    if suffix.isEmpty then return (⟨[], Tag.shortHandle⟩, pos)
    else return (⟨Tag.shortHandle, suffix⟩, pos)

def readVerbatim (pos : Cursor) : Option (WrittenTag × Cursor) := do
  let pos := pos.advance 2
  if (pos.rest.head?.map (isTagChar true)).getD false then
    let (name, pos) ← readTagText true pos
    match pos.rest with
    | '>' :: _ => return (⟨[], name⟩, pos.advance 1)
    | _ => none
  else none

/-- A tag, which a gap must follow, or a comma inside a flow collection. -/
def readTag (flow : Bool) (pos : Cursor) : Option (WrittenTag × Cursor) := do
  let (tag, pos) ←
    match pos.rest with
    | '!' :: '<' :: _ => readVerbatim pos
    | _ => readShorthand pos
  if atGapOrEnd pos.rest || (flow && pos.rest.head? = some ',') then return (tag, pos)
  else none

/-! ### Directives -/

def readNumber (pos : Cursor) : Option (Nat × Cursor) :=
  let digits := pos.rest.takeWhile isDigit
  if digits.isEmpty || 9 < digits.length then none
  else
    some (digits.foldl (fun n c => n * 10 + digitValue c) 0, pos.advance digits.length)

def readVersion (pos : Cursor) : Option (Token × Cursor) := do
  let (major, pos) ← readNumber (pos.skipWhile isBlank)
  match pos.rest with
  | '.' :: _ =>
      let (minor, pos) ← readNumber (pos.advance 1)
      return (.versionDirective major minor, pos)
  | _ => none

/-- The handle of a tag directive and what it stands for. -/
def readTagDirective (pos : Cursor) : Option (Token × Cursor) := do
  let (handle, pos) ← readHandle (pos.skipWhile isBlank)
  if handle = ['!'] || handle.getLast? = some '!' then
    match pos.rest with
    | c :: _ =>
        if isBlank c then
          let pos := pos.skipWhile isBlank
          if (pos.rest.head?.map (isTagChar true)).getD false then
            let (stem, pos) ← readTagText true pos
            if atGapOrEnd pos.rest then return (.tagDirective (toBytes handle) stem, pos)
            else none
          else none
        else none
    | [] => none
  else none

def readDirective (pos : Cursor) : Option (Token × Cursor) := do
  let pos := pos.advance 1
  let name := pos.rest.takeWhile isWord
  let pos := pos.advance name.length
  if name.isEmpty || !atGapOrEnd pos.rest then none
  else
    let (token, pos) ←
      if name = ['Y', 'A', 'M', 'L'] then readVersion pos
      else if name = ['T', 'A', 'G'] then readTagDirective pos
      else none
    return (token, ← pos.finishLine?)

end StepGraph.Yaml.Property
