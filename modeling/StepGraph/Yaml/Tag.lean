/-
Tags of YAML nodes.

A tag is written with a handle and a suffix; the handle stands for the
beginning of the full name.  A full name that starts with `!` is a short tag
of the document's own; four names of the core set say how a scalar is to be
read; all others say no more than that a plain scalar is text.
-/
import StepGraph.Yaml.Character

namespace StepGraph.Yaml

/-- A part of a tag's name, as bytes, since it may be written with escaped bytes. -/
abbrev TagText := List UInt8

/-- A tag as it is written. -/
structure WrittenTag where
  /-- The handle, empty when the suffix is the full name. -/
  handle : TagText
  suffix : TagText

/-- What a tag means. -/
inductive Tag where
  /-- A short tag; of two exclamation marks in front one belongs to the name. -/
  | short (name : String)
  /-- A short tag whose name is no text. -/
  | unreadable
  | bool
  | int
  | float
  | null
  /-- Any other full name. -/
  | foreign
deriving DecidableEq

namespace Tag

def bytes (text : String) : TagText := text.toUTF8.toList

def text? (bytes : TagText) : Option String := String.fromUTF8? ⟨bytes.toArray⟩

def shortHandle : TagText := bytes "!"

def coreHandle : TagText := bytes "!!"

/-- The beginning of the core tags' full names. -/
def coreStem : TagText := bytes "tag:yaml.org,2002:"

/-- The name of a short tag, given what follows its first mark: nothing stands for the mark
itself, and one more mark in front of something is dropped. -/
def shortName (rest : String) : String :=
  match rest.toList with
  | [] => "!"
  | '!' :: c :: cs => String.ofList (c :: cs)
  | _ => rest

def ofName (name : TagText) : Tag :=
  match name, text? name with
  | 33 :: rest, _ =>
      match text? rest with
      | some rest => .short (shortName rest)
      | none => .unreadable
  | _, some name =>
      if name = "tag:yaml.org,2002:bool" then .bool
      else if name = "tag:yaml.org,2002:int" then .int
      else if name = "tag:yaml.org,2002:float" then .float
      else if name = "tag:yaml.org,2002:null" then .null
      else .foreign
  | _, none => .foreign

/-- The beginning of names that a handle stands for; directives take precedence. -/
def stem? (directives : List (TagText × TagText)) (handle : TagText) : Option TagText :=
  ((directives ++ [(shortHandle, shortHandle), (coreHandle, coreStem)]).find?
    fun directive => directive.1 = handle).map Prod.snd

/-- The tag that is written; none when its handle is not declared. -/
def resolve? (directives : List (TagText × TagText)) (tag : WrittenTag) : Option Tag :=
  if tag.handle.isEmpty then some (ofName tag.suffix)
  else (stem? directives tag.handle).map fun stem => ofName (stem ++ tag.suffix)

end Tag

end StepGraph.Yaml
