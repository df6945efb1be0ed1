/-
JSON text under any file name.

Every text that JSON reads is written by a tree.  If that is shared, YAML reads
the same document from it, so it does not matter what a file with that text is
called, unless YAML forbids a character in it, a character is written by two
surrogates or an object has a name twice; then YAML refuses the text.  What else
the two readers do not have in common stands in trees that are not shared, such
as a negative zero.  Small numbers are never in the way.
-/
import StepGraph.Proofs.CommandAgreement
import StepGraph.Proofs.FlowNodes
import StepGraph.Proofs.NearestDouble

namespace StepGraph

open StepGraph.Json (NumberText WrittenText)

theorem Yaml.parse?_written {w : WrittenText} {text : String} {document : Document}
    (hw : w.chars = text.toList) (hs : w.Shared)
    (hd : w.root.document? Json.maxNesting = some document) :
    Yaml.parse? text = if w.readable then some w.root.value else none := by
  rw [parse?, tokens?_written hs hw, WrittenText.readable, ← Bool.and_assoc]
  cases w.chars.all isAllowed && w.root.unpaired with
  | false => rfl
  | true =>
      simp only [if_true, Option.bind_eq_bind, Option.bind_some, Bool.true_and]
      rw [Node.ofTokens?_written]
      exact Node.value?_written hs.root hd

namespace Source

theorem parse_json_eq_ok {text : String} {document : Document} :
    parse .json text = .ok document ↔ Json.parse? text = some document := by
  rw [parse]
  split
  · rename_i found hfound
    rw [hfound, Except.ok.injEq, Option.some.injEq]
  · rename_i hnone
    rw [hnone]
    constructor
    · intro h
      cases h
    · intro h
      cases h

/-- What YAML makes of a text that JSON reads, if the tree that writes it is shared. -/
theorem parse_yaml_written {w : WrittenText} {text : String} {document : Document}
    (h : parse .json text = .ok document) (hw : w.chars = text.toList) (hs : w.Shared) :
    parse .yaml text = if w.readable then .ok document else .error .yaml := by
  have hjson := parse_json_eq_ok.mp h
  have hd : w.root.document? Json.maxNesting = some document := by
    rw [← Json.parse?_written hw, hjson]
  rw [parse, Yaml.parse?_written hw hs hd]
  cases w.readable with
  | true =>
      show Except.mapError Fault.obstacle w.root.value.toDocument = _
      rw [Yaml.Value.toDocument_written w.root hd]
      rfl
  | false => rfl

/-- A text that both read alike may stand in any file. -/
theorem load_of_parse {text : String} {document : Document}
    (hjson : parse .json text = .ok document) (hyaml : parse .yaml text = .ok document)
    (path : String) : load path (some text.toUTF8) = .ok document := by
  rw [load_text]
  cases Format.ofPath path with
  | json => exact hjson
  | yaml => exact hyaml

/-- A text that JSON reads is written by a tree.  If that is shared and readable, YAML reads the
same document from the text, and so does every file with it; if it is shared but not readable, YAML
refuses the text. -/
theorem parse_yaml_of_json {text : String} {document : Document}
    (h : parse .json text = .ok document) :
    (∃ w : WrittenText, w.chars = text.toList) ∧
      ∀ w : WrittenText, w.chars = text.toList → w.Shared →
        (w.readable = true →
          parse .yaml text = .ok document ∧
            ∀ path, load path (some text.toUTF8) = .ok document) ∧
        (w.readable = false → parse .yaml text = .error .yaml) := by
  constructor
  · obtain ⟨w, hw, -⟩ := Json.parse?_eq_some_iff.mp (parse_json_eq_ok.mp h)
    exact ⟨w, hw⟩
  · intro w hw hs
    have hyaml := parse_yaml_written h hw hs
    constructor
    · intro hreadable
      rw [hreadable] at hyaml
      exact ⟨hyaml, load_of_parse h hyaml⟩
    · intro hrefused
      rw [hrefused] at hyaml
      exact hyaml

/-- Whatever the file is called, JSON text with small numbers is read as JSON, unless YAML has no
place for how it is written. -/
theorem load_of_small {w : WrittenText} {text : String} {document : Document}
    (h : parse .json text = .ok document) (hw : w.chars = text.toList)
    (hs : w.SharedIf NumberText.Small) (hreadable : w.readable = true) (path : String) :
    load path (some text.toUTF8) = .ok document := by
  have hyaml := parse_yaml_written h hw (WrittenText.shared_of_small hs)
  rw [hreadable] at hyaml
  exact load_of_parse h hyaml path

/-- An object on two lines with numbers of both kinds and an escape. -/
def weightedText : String :=
  "\x7b\"Weights\": [1, -0.25, true],\n \"Next\": \"Roll\\u006fut\"\x7d"

def weightedDocument : Document :=
  .object
    [("Weights", .list
      [.number (.int 1), .number (.double ⟨true, 4503599627370496, -54⟩), .bool true]),
     ("Next", .string "Rollout")]

section weightedTree

open StepGraph.Json

/-- Whether a character stands for itself between quotes. -/
def isFree (c : Char) : Bool := c ≠ '"' && c ≠ '\\' && 32 ≤ c.toNat

def plainLetters (cs : List Char) (h : cs.all isFree = true) : Letters :=
  cs.pmap (fun c free => .plain c (by simpa [isFree, and_assoc] using free)) (List.all_eq_true.mp h)

def digits (cs : List Char) (h : cs.all StepGraph.Text.isDigit = true) (hne : cs ≠ []) : Digits :=
  ⟨cs, List.all_eq_true.mp h, hne⟩

def blanks (cs : List Char) (h : cs.all isBlank = true) : Blanks := ⟨cs, List.all_eq_true.mp h⟩

def space : Blanks := blanks [' '] rfl

def one : NumberText where
  negative := false
  whole := digits ['1'] rfl (by decide)
  part := none
  exponent := none
  value := .int 1
  unpadded := by
    rintro rest h
    cases h
  assembled := by rfl

def minusQuarter : NumberText where
  negative := true
  whole := digits ['0'] rfl (by decide)
  part := some (digits ['2', '5'] rfl (by decide))
  exponent := none
  value := .double ⟨true, 4503599627370496, -54⟩
  unpadded := by
    rintro rest h
    exact (List.cons.inj h).2.symm
  assembled := by rfl

def weights : Written :=
  .list .none (.more (.number one) .none space
    (.more (.number minusQuarter) .none space (.last (.bool true) .none)))

def next : Written :=
  .string (plainLetters ['R', 'o', 'l', 'l'] rfl ++
    .unit ⟨['0', '0', '6', 'f'], 0x6f, rfl⟩ ⟨rfl, rfl⟩ :: plainLetters ['u', 't'] rfl)

def weightedTree : WrittenText where
  before := .none
  root := .object .none
    (.more ⟨plainLetters ['W', 'e', 'i', 'g', 'h', 't', 's'] rfl, .none⟩ space weights
      .none (blanks ['\n', ' '] rfl)
      (.last ⟨plainLetters ['N', 'e', 'x', 't'] rfl, .none⟩ space next .none))
  after := .none

end weightedTree

theorem weightedTree_chars : weightedTree.chars = weightedText.toList := by
  unfold weightedText
  cbv

/-- So this text may be kept under any name. -/
theorem weightedText_parse_yaml :
    parse .json weightedText = .ok weightedDocument ∧
      weightedTree.chars = weightedText.toList ∧ weightedTree.Shared ∧
      weightedTree.readable = true ∧
      parse .yaml weightedText = .ok weightedDocument ∧
      load "weights.template" (some weightedText.toUTF8) = .ok weightedDocument := by
  have h : parse .json weightedText = .ok weightedDocument := by
    rw [parse_json_eq_ok, Json.parse?_written weightedTree_chars]
    rfl
  have hs : weightedTree.Shared := WrittenText.shared_of_small (by decide)
  have hr : weightedTree.readable = true := by decide
  obtain ⟨hyaml, hload⟩ := ((parse_yaml_of_json h).2 weightedTree weightedTree_chars hs).1 hr
  exact ⟨h, weightedTree_chars, hs, hr, hyaml, hload "weights.template"⟩

-- A character by two surrogates.
example : parse .json "\"\\ud83d\\ude80\"" = .ok (.string "🚀") ∧
    parse .yaml "\"\\ud83d\\ude80\"" = .error .yaml := ⟨by cbv, by cbv⟩

end Source

end StepGraph
