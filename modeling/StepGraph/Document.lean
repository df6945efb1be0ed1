/-
Documents: the trees that plans and templates are written as.

A document is null, a boolean, a number, a text, a list of documents or an
object with named fields in authored order.  An integer stays an integer;
every other number is a finite double.  What a reader of documents asks is
here too: the kind of a node in words, and the field of an object under a
name.
-/
import StepGraph.Fields
import StepGraph.Decimal.Double

namespace StepGraph

/-- A number of a document. -/
inductive Number where
  | int (value : Int)
  | double (value : Double)
deriving DecidableEq

/-- A document tree. -/
inductive Document where
  | null
  | bool (value : Bool)
  | number (value : Number)
  | string (text : String)
  | list (items : List Document)
  | object (fields : List (String × Document))

/-- What a node is, or that there is none. -/
inductive Kind where
  | nothing
  | null
  | boolean
  | number
  | string
  | list
  | object
deriving DecidableEq

/-- A kind as it is named in a message. -/
def Kind.phrase : Kind → String
  | .nothing => "nothing"
  | .null => "null"
  | .boolean => "a boolean"
  | .number => "a number"
  | .string => "a string"
  | .list => "a list"
  | .object => "an object"

/-- A boolean as it is written in every format. -/
def boolText (value : Bool) : String := if value then "true" else "false"

namespace Document

/-- The kind of a node. -/
def kind : Document → Kind
  | .null => .null
  | .bool _ => .boolean
  | .number _ => .number
  | .string _ => .string
  | .list _ => .list
  | .object _ => .object

/-- The field of an object under a name; other documents have none. -/
def field? : Document → String → Option Document
  | .object fields, name => Fields.get? fields name
  | _, _ => none

/-- The text of a text node. -/
def text? : Document → Option String
  | .string text => some text
  | _ => none

/-- The items of a list. -/
def items? : Document → Option (List Document)
  | .list items => some items
  | _ => none

/-- The fields of an object. -/
def fields? : Document → Option (Fields Document)
  | .object fields => some fields
  | _ => none

/-- The text stored under a name in an object. -/
def textAt? (document : Document) (name : String) : Option String :=
  (document.field? name).bind text?

/-- Stores a document at the end of a path of names; a path that is not there
leaves the document as it is. -/
def replaceAt : Document → List String → Document → Document
  | _, [], new => new
  | .object fields, name :: path, new =>
      match Fields.get? fields name with
      | some old => .object (Fields.replace fields name (replaceAt old path new))
      | none => .object fields
  | document, _ :: _, _ => document

theorem textAt?_object {fields : Fields Document} {name text : String}
    (h : Fields.get? fields name = some (.string text)) :
    (object fields).textAt? name = some text := by
  rw [textAt?, field?, h]
  rfl

theorem field?_replaceAt_self (document : Document) (name : String) (path : List String)
    (new : Document) :
    (document.replaceAt (name :: path) new).field? name =
      (document.field? name).map fun old => old.replaceAt path new := by
  cases document with
  | object fields =>
    rw [replaceAt, field?]
    cases h : Fields.get? fields name with
    | none => simpa [field?] using h
    | some old => simp [field?, h]
  | _ => rfl

/-- Storing at a path changes nothing beside it. -/
theorem field?_replaceAt_of_ne (document : Document) {name other : String} (path : List String)
    (new : Document) (h : name ≠ other) :
    (document.replaceAt (name :: path) new).field? other = document.field? other := by
  cases document with
  | object fields =>
    rw [replaceAt]
    cases Fields.get? fields name with
    | none => rfl
    | some old => exact Fields.get?_replace_of_ne _ _ h
  | _ => rfl

/-- Storing under a name that is present in an object. -/
theorem replaceAt_object {fields : Fields Document} {name : String} {old : Document}
    (h : Fields.get? fields name = some old) (path : List String) (new : Document) :
    (object fields).replaceAt (name :: path) new =
      object (Fields.replace fields name (old.replaceAt path new)) := by
  rw [replaceAt, h]

end Document

end StepGraph
