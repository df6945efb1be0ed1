/-
Texts that are JSON and YAML alike.

A tree is shared when its parts are the same to both readers.  Line breaks that
are none in JSON, names whose colon is far away and numbers that the readers
round differently are left out.  Characters that YAML forbids, surrogates and
names that occur twice are another matter: of those YAML refuses to read any.
-/
import StepGraph.Proofs.FlowScalars
import StepGraph.Proofs.PlainNumbers

namespace StepGraph.Json

open StepGraph.Text (isDigit)

/-- Letters that stand on one line of YAML. -/
def Letters.Shared (letters : Letters) : Prop := ∀ letter ∈ letters, letter.Shared

instance (letters : Letters) : Decidable (Letters.Shared letters) :=
  List.decidableBAll Letter.Shared letters

/-- A name that YAML recognises as a key: the colon stands on the same line, at most 1024 bytes
behind the start of the name. -/
structure Name.Shared (name : Name) : Prop where
  letters : Letters.Shared name.letters
  line : ∀ c ∈ name.behind.chars, Yaml.isBreak c = false
  near : Yaml.byteCount name.chars ≤ 1024

instance (name : Name) : Decidable name.Shared :=
  have : Decidable (∀ c ∈ name.behind.chars, Yaml.isBreak c = false) :=
    List.decidableBAll _ name.behind.chars
  decidable_of_iff
    (Letters.Shared name.letters ∧ (∀ c ∈ name.behind.chars, Yaml.isBreak c = false) ∧
      Yaml.byteCount name.chars ≤ 1024)
    ⟨fun h => ⟨h.1, h.2.1, h.2.2⟩, fun h => ⟨h.letters, h.line, h.near⟩⟩

mutual

/-- A document of JSON whose parts are the same in YAML, if its numbers are where they have a
property. -/
def Written.SharedIf (number : NumberText → Prop) : Written → Prop
  | .number numeral => number numeral
  | .string letters => Letters.Shared letters
  | .list _ items => items.SharedIf number
  | .object _ members => members.SharedIf number
  | .null | .bool _ | .emptyList _ | .emptyObject _ => True

def Items.SharedIf (number : NumberText → Prop) : Items → Prop
  | .last item _ => item.SharedIf number
  | .more item _ _ rest => item.SharedIf number ∧ rest.SharedIf number

def Members.SharedIf (number : NumberText → Prop) : Members → Prop
  | .last name _ value _ => name.Shared ∧ value.SharedIf number
  | .more name _ value _ _ rest =>
      name.Shared ∧ value.SharedIf number ∧ rest.SharedIf number

end

/-- A document of JSON whose parts are the same in YAML. -/
def Written.Shared (w : Written) : Prop := w.SharedIf NumberText.Shared

def Items.Shared (items : Items) : Prop := items.SharedIf NumberText.Shared

def Members.Shared (members : Members) : Prop := members.SharedIf NumberText.Shared

section Numbers

variable {number other : NumberText → Prop}

mutual

/-- Numbers may be known by another property that follows. -/
theorem Written.SharedIf.mono (h : ∀ n, number n → other n) :
    ∀ {w : Written}, w.SharedIf number → w.SharedIf other
  | .number numeral, hs => h numeral hs
  | .string _, hs => hs
  | .list _ _, hs => Items.SharedIf.mono h hs
  | .object _ _, hs => Members.SharedIf.mono h hs
  | .null, _ | .bool _, _ | .emptyList _, _ | .emptyObject _, _ => trivial

theorem Items.SharedIf.mono (h : ∀ n, number n → other n) :
    ∀ {items : Items}, items.SharedIf number → items.SharedIf other
  | .last _ _, hs => Written.SharedIf.mono h hs
  | .more _ _ _ _, ⟨hitem, hrest⟩ =>
      ⟨Written.SharedIf.mono h hitem, Items.SharedIf.mono h hrest⟩

theorem Members.SharedIf.mono (h : ∀ n, number n → other n) :
    ∀ {members : Members}, members.SharedIf number → members.SharedIf other
  | .last _ _ _ _, ⟨hname, hvalue⟩ => ⟨hname, Written.SharedIf.mono h hvalue⟩
  | .more _ _ _ _ _ _, ⟨hname, hvalue, hrest⟩ =>
      ⟨hname, Written.SharedIf.mono h hvalue, Members.SharedIf.mono h hrest⟩

end

variable [DecidablePred number]

mutual

instance Written.decidableSharedIf : (w : Written) → Decidable (w.SharedIf number)
  | .null | .bool _ | .emptyList _ | .emptyObject _ => isTrue trivial
  | .number numeral => inferInstanceAs (Decidable (number numeral))
  | .string letters => inferInstanceAs (Decidable (Letters.Shared letters))
  | .list _ items => Items.decidableSharedIf items
  | .object _ members => Members.decidableSharedIf members

instance Items.decidableSharedIf : (items : Items) → Decidable (items.SharedIf number)
  | .last item _ => Written.decidableSharedIf item
  | .more item _ _ rest =>
      have := Written.decidableSharedIf item
      have := Items.decidableSharedIf rest
      inferInstanceAs (Decidable (_ ∧ _))

instance Members.decidableSharedIf : (members : Members) → Decidable (members.SharedIf number)
  | .last _ _ value _ =>
      have := Written.decidableSharedIf value
      inferInstanceAs (Decidable (_ ∧ _))
  | .more _ _ value _ _ rest =>
      have := Written.decidableSharedIf value
      have := Members.decidableSharedIf rest
      inferInstanceAs (Decidable (_ ∧ _ ∧ _))

end

end Numbers

mutual

/-- Whether no character in a document is written by two surrogates. -/
def Written.unpaired : Written → Bool
  | .string letters => Letters.unpaired letters
  | .list _ items => items.unpaired
  | .object _ members => members.unpaired
  | _ => true

def Items.unpaired : Items → Bool
  | .last item _ => item.unpaired
  | .more item _ _ rest => item.unpaired && rest.unpaired

def Members.unpaired : Members → Bool
  | .last name _ value _ => Letters.unpaired name.letters && value.unpaired
  | .more name _ value _ _ rest =>
      Letters.unpaired name.letters && (value.unpaired && rest.unpaired)

end

/-- The names of an object, as often as they stand there. -/
def Members.names : Members → List String
  | .last name _ _ _ => [Letters.text name.letters]
  | .more name _ _ _ _ rest => Letters.text name.letters :: rest.names

mutual

/-- Whether no object in a document has a name twice. -/
def Written.distinct : Written → Bool
  | .list _ items => items.distinct
  | .object _ members => members.distinct && decide members.names.Nodup
  | _ => true

def Items.distinct : Items → Bool
  | .last item _ => item.distinct
  | .more item _ _ rest => item.distinct && rest.distinct

def Members.distinct : Members → Bool
  | .last _ _ value _ => value.distinct
  | .more _ _ value _ _ rest => value.distinct && rest.distinct

end

/-- Whether a document is a plain scalar of YAML. -/
def Written.isPlain : Written → Bool
  | .null | .bool _ | .number _ => true
  | _ => false

/-- A text whose parts are the same in JSON and in YAML, if its numbers are where they have a
property.  Outside of any bracket YAML does not pass over a tab where a key may start; a plain
scalar takes the blanks behind it. -/
structure WrittenText.SharedIf (number : NumberText → Prop) (w : WrittenText) : Prop where
  root : w.root.SharedIf number
  before : Yaml.Lexer.Passes false true w.before.chars
  after : w.root.isPlain = false → Yaml.Lexer.Passes false false w.after.chars

/-- A text whose parts are the same in JSON and in YAML. -/
def WrittenText.Shared (w : WrittenText) : Prop := w.SharedIf NumberText.Shared

instance (number : NumberText → Prop) [DecidablePred number] (w : WrittenText) :
    Decidable (w.SharedIf number) :=
  decidable_of_iff
    (w.root.SharedIf number ∧ Yaml.Lexer.Passes false true w.before.chars ∧
      (w.root.isPlain = false → Yaml.Lexer.Passes false false w.after.chars))
    ⟨fun h => ⟨h.1, h.2.1, h.2.2⟩, fun h => ⟨h.root, h.before, h.after⟩⟩

/-- Whether YAML reads a shared text: it allows all its characters, none is written by two
surrogates, and no object has a name twice. -/
def WrittenText.readable (w : WrittenText) : Bool :=
  w.chars.all Yaml.isAllowed && (w.root.unpaired && w.root.distinct)

/-! ## Characters of numbers -/

theorem mem_digits {c : Char} (h : isDigit c = true) : c ∈ "0123456789".toList := by
  have hle : ∀ d e : Char, d ≤ e ↔ d.toNat ≤ e.toNat := fun d e => Iff.rfl
  simp only [isDigit, Bool.and_eq_true, decide_eq_true_eq, hle] at h
  rw [← Char.ofNat_toNat c]
  have hten : c.toNat = 48 ∨ c.toNat = 49 ∨ c.toNat = 50 ∨ c.toNat = 51 ∨ c.toNat = 52 ∨
      c.toNat = 53 ∨ c.toNat = 54 ∨ c.toNat = 55 ∨ c.toNat = 56 ∨ c.toNat = 57 := by
    have hlow : 48 ≤ c.toNat := h.1
    have hhigh : c.toNat ≤ 57 := h.2
    omega
  rcases hten with hc | hc | hc | hc | hc | hc | hc | hc | hc | hc
  all_goals
    rw [hc]
    decide

/-- What is so for the ten digits is so for every digit. -/
theorem of_digits {p : Char → Bool} {b : Bool} {c : Char}
    (hp : "0123456789".toList.all (fun d => p d == b) = true) (h : isDigit c = true) : p c = b :=
  eq_of_beq (List.all_eq_true.mp hp c (mem_digits h))

/-- The characters of numbers. -/
def isNumeric (c : Char) : Bool :=
  isDigit c || c = '-' || c = '+' || c = '.' || c = 'e' || c = 'E'

theorem isNumeric_of_isDigit {c : Char} (h : isDigit c = true) : isNumeric c = true := by
  simp [isNumeric, h]

theorem Exponent.isNumeric_chars (e : Exponent) : ∀ c ∈ e.chars, isNumeric c = true := by
  intro c hc
  rw [Exponent.chars, List.mem_cons, List.mem_append] at hc
  rcases hc with rfl | hc | hc
  · rcases e.marks with h | h
    all_goals
      rw [h]
      decide
  · cases hs : e.sign with
    | none =>
        rw [hs] at hc
        cases hc
    | _ =>
        rw [hs] at hc
        obtain rfl := List.mem_singleton.mp hc
        decide
  · exact isNumeric_of_isDigit (e.digits.digit c hc)

theorem NumberText.isNumeric_chars (n : NumberText) : ∀ c ∈ n.chars, isNumeric c = true := by
  intro c hc
  rw [NumberText.chars, List.mem_append, List.mem_append, List.mem_append] at hc
  rcases hc with hc | hc | hc | hc
  · rw [NumberText.signChars] at hc
    split at hc
    · obtain rfl := List.mem_singleton.mp hc
      decide
    · cases hc
  · exact isNumeric_of_isDigit (n.whole.digit c hc)
  · rw [NumberText.partChars] at hc
    cases hp : n.part with
    | none =>
        rw [hp] at hc
        cases hc
    | some part =>
        rw [hp] at hc
        rcases List.mem_cons.mp hc with rfl | hc
        · decide
        · exact isNumeric_of_isDigit (part.digit c hc)
  · rw [NumberText.exponentChars] at hc
    cases he : n.exponent with
    | none =>
        rw [he] at hc
        cases hc
    | some exponent =>
        rw [he] at hc
        exact exponent.isNumeric_chars c hc

end StepGraph.Json
