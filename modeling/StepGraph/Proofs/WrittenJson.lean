/-
JSON text as it is written.

Reading a text forgets how it was written: the blanks, the escapes, the digits
of a number, the names that a later one replaced.  A `Written` tree keeps all
this.  Its parts carry the proofs that they are well formed, so every tree
writes a text of the grammar; what the text says is `document?`, which fails
only where containers are nested too deep.
-/
import StepGraph.Json.Reader

namespace StepGraph.Json

open StepGraph.Text (isDigit)

/-! ## Parts of a text -/

/-- Blanks between tokens. -/
structure Blanks where
  chars : List Char
  blank : ∀ c ∈ chars, isBlank c = true

def Blanks.none : Blanks := ⟨[], List.forall_mem_nil _⟩

@[simp] theorem Blanks.chars_none : Blanks.none.chars = [] := rfl

structure Digits where
  chars : List Char
  digit : ∀ c ∈ chars, isDigit c = true
  nonempty : chars ≠ []

/-- The sign of an exponent. -/
inductive Sign where
  | none
  | plus
  | minus

def Sign.chars : Sign → List Char
  | .none => []
  | .plus => ['+']
  | .minus => ['-']

/-- Whether the sign makes a number negative. -/
def Sign.isMinus : Sign → Bool
  | .minus => true
  | _ => false

structure Exponent where
  mark : Char
  sign : Sign
  digits : Digits
  marks : mark = 'e' ∨ mark = 'E'

namespace Exponent

def chars (e : Exponent) : List Char := e.mark :: (e.sign.chars ++ e.digits.chars)

def value (e : Exponent) : Int :=
  match e.sign with
  | .minus => -(natural e.digits.chars : Int)
  | _ => natural e.digits.chars

end Exponent

/-- A number, of which the reader makes `value`. -/
structure NumberText where
  negative : Bool
  whole : Digits
  part : Option Digits
  exponent : Option Exponent
  value : Number
  unpadded : ∀ rest, whole.chars = '0' :: rest → rest = []
  assembled : assemble negative whole.chars (part.map Digits.chars) (exponent.map Exponent.value) =
    some value

namespace NumberText

def signChars (n : NumberText) : List Char := if n.negative then ['-'] else []

def partChars (n : NumberText) : List Char := (n.part.map fun part => '.' :: part.chars).getD []

def exponentChars (n : NumberText) : List Char := (n.exponent.map Exponent.chars).getD []

def chars (n : NumberText) : List Char :=
  n.signChars ++ (n.whole.chars ++ (n.partChars ++ n.exponentChars))

end NumberText

/-- Four hexadecimal digits. -/
structure CodeUnit where
  digits : List Char
  code : Nat
  reads : hexFour digits = some (code, [])

def isHighSurrogate (code : Nat) : Bool := 0xD800 ≤ code && code ≤ 0xDBFF

def isLowSurrogate (code : Nat) : Bool := 0xDC00 ≤ code && code ≤ 0xDFFF

/-- A character between quotes. -/
inductive Letter where
  /-- A character that stands for itself. -/
  | plain (c : Char) (free : c ≠ '"' ∧ c ≠ '\\' ∧ 32 ≤ c.toNat)
  | short (letter c : Char) (stands : shortEscape? letter = some c)
  | unit (four : CodeUnit)
      (single : isHighSurrogate four.code = false ∧ isLowSurrogate four.code = false)
  /-- One character by two surrogates. -/
  | pair (high low : CodeUnit)
      (paired : isHighSurrogate high.code = true ∧ isLowSurrogate low.code = true)

namespace Letter

def chars : Letter → List Char
  | .plain c _ => [c]
  | .short letter _ _ => ['\\', letter]
  | .unit four _ => '\\' :: 'u' :: four.digits
  | .pair high low _ => '\\' :: 'u' :: (high.digits ++ '\\' :: 'u' :: low.digits)

def char : Letter → Char
  | .plain c _ => c
  | .short _ c _ => c
  | .unit four _ => Char.ofNat four.code
  | .pair high low _ =>
      Char.ofNat (0x10000 + (high.code - 0xD800) * 0x400 + (low.code - 0xDC00))

end Letter

abbrev Letters := List Letter

namespace Letters

def chars (letters : Letters) : List Char := letters.flatMap Letter.chars

def text (letters : Letters) : String := String.ofList (letters.map Letter.char)

/-- The letters in quotes. -/
def quoted (letters : Letters) : List Char := '"' :: (letters.chars ++ ['"'])

end Letters

/-- The name of a field and the blanks up to its colon. -/
structure Name where
  letters : Letters
  behind : Blanks

def Name.chars (name : Name) : List Char := name.letters.quoted ++ name.behind.chars

/-! ## Trees -/

mutual

/-- A document as it is written. -/
inductive Written where
  | null
  | bool (value : Bool)
  | number (numeral : NumberText)
  | string (letters : Letters)
  | emptyList (gap : Blanks)
  | list (gap : Blanks) (items : Items)
  | emptyObject (gap : Blanks)
  | object (gap : Blanks) (members : Members)

/-- The items of a list: one and the blanks behind it, or behind that a comma, blanks and
more. -/
inductive Items where
  | last (item : Written) (after : Blanks)
  | more (item : Written) (after before : Blanks) (rest : Items)

/-- The fields of an object, with blanks behind the colon and behind the value. -/
inductive Members where
  | last (name : Name) (before : Blanks) (value : Written) (after : Blanks)
  | more (name : Name) (before : Blanks) (value : Written) (after gap : Blanks) (rest : Members)

end

mutual

def Written.chars : Written → List Char
  | .null => ['n', 'u', 'l', 'l']
  | .bool true => ['t', 'r', 'u', 'e']
  | .bool false => ['f', 'a', 'l', 's', 'e']
  | .number numeral => numeral.chars
  | .string letters => letters.quoted
  | .emptyList gap => '[' :: (gap.chars ++ [']'])
  | .list gap items => '[' :: (gap.chars ++ (items.chars ++ [']']))
  | .emptyObject gap => '{' :: (gap.chars ++ ['}'])
  | .object gap members => '{' :: (gap.chars ++ (members.chars ++ ['}']))

def Items.chars : Items → List Char
  | .last item after => item.chars ++ after.chars
  | .more item after before rest =>
      item.chars ++ (after.chars ++ ',' :: (before.chars ++ rest.chars))

def Members.chars : Members → List Char
  | .last name before value after =>
      name.chars ++ ':' :: (before.chars ++ (value.chars ++ after.chars))
  | .more name before value after gap rest =>
      name.chars ++ ':' ::
        (before.chars ++ (value.chars ++ (after.chars ++ ',' :: (gap.chars ++ rest.chars))))

end

mutual

/-- What is written, if there is room for its containers. -/
def Written.document? : Nat → Written → Option Document
  | _, .null => some .null
  | _, .bool value => some (.bool value)
  | _, .number numeral => some (.number numeral.value)
  | _, .string letters => some (.string letters.text)
  | 0, .emptyList _ | 0, .list _ _ | 0, .emptyObject _ | 0, .object _ _ => none
  | _ + 1, .emptyList _ => some (.list [])
  | room + 1, .list _ items => (items.documents? room).map .list
  | _ + 1, .emptyObject _ => some (.object [])
  | room + 1, .object _ members => (members.fields? room []).map .object

def Items.documents? : Nat → Items → Option (List Document)
  | room, .last item _ => (item.document? room).map ([·])
  | room, .more item _ _ rest => do
      let first ← item.document? room
      return first :: (← rest.documents? room)

/-- The fields behind those already read. -/
def Members.fields? : Nat → Fields Document → Members → Option (Fields Document)
  | room, read, .last name _ value _ => do
      return read.insert name.letters.text (← value.document? room)
  | room, read, .more name _ value _ _ rest => do
      rest.fields? room (read.insert name.letters.text (← value.document? room))

end

/-- A whole text: a document between blanks. -/
structure WrittenText where
  before : Blanks
  root : Written
  after : Blanks

def WrittenText.chars (w : WrittenText) : List Char :=
  w.before.chars ++ (w.root.chars ++ w.after.chars)

end StepGraph.Json
