/-
Intrinsic functions of templates.

An intrinsic function is written in full as an object with one field, named
for the function; in YAML it may be written as a short tag instead.
-/
import StepGraph.Document

namespace StepGraph

/-- An intrinsic function that has a short tag. -/
inductive Intrinsic where
  | ref
  | condition
  | sub
  | getAtt
  | split
  | select
  | join
  | importValue
  | getAZs
  | findInMap
  | cidr
  | base64
  | equals
  | and
  | or
  | not
  | if
  | transform
  | length
  | toJsonString
deriving DecidableEq

namespace Intrinsic

/-- All intrinsic functions. -/
def all : List Intrinsic :=
  [.ref, .condition, .sub, .getAtt, .split, .select, .join, .importValue, .getAZs, .findInMap,
   .cidr, .base64, .equals, .and, .or, .not, .if, .transform, .length, .toJsonString]

/-- The name of a function's short tag, without its mark. -/
def tag : Intrinsic → String
  | .ref => "Ref"
  | .condition => "Condition"
  | .sub => "Sub"
  | .getAtt => "GetAtt"
  | .split => "Split"
  | .select => "Select"
  | .join => "Join"
  | .importValue => "ImportValue"
  | .getAZs => "GetAZs"
  | .findInMap => "FindInMap"
  | .cidr => "Cidr"
  | .base64 => "Base64"
  | .equals => "Equals"
  | .and => "And"
  | .or => "Or"
  | .not => "Not"
  | .if => "If"
  | .transform => "Transform"
  | .length => "Length"
  | .toJsonString => "ToJsonString"

/-- The field that stands for a function in full: its tag behind `Fn::`, except for a
reference and a condition. -/
def field (function : Intrinsic) : String :=
  match function with
  | .ref | .condition => function.tag
  | _ => "Fn::" ++ function.tag

/-- The function of a tag's name. -/
def ofName? (name : String) : Option Intrinsic :=
  all.find? fun function => function.tag = name

/-- The function of a tag, with or without its mark. -/
def ofTag? (tag : String) : Option Intrinsic :=
  match tag.toList with
  | '!' :: name => ofName? (String.ofList name)
  | name => ofName? (String.ofList name)

/-- A function applied to an operand, in full. -/
def apply (function : Intrinsic) (operand : Document) : Document :=
  .object [(function.field, operand)]

/-- The operand that a path to an attribute writes: the resource and the attribute,
separated by the first dot, or the path itself if it has no dot. -/
def attributeOperand (path : String) : Document :=
  let resource := path.toList.takeWhile (· ≠ '.')
  match path.toList.drop resource.length with
  | _ :: name => .list [.string (String.ofList resource), .string (String.ofList name)]
  | [] => .string path

theorem mem_all (function : Intrinsic) : function ∈ all := by
  cases function <;> simp [all]

theorem ofName?_tag (function : Intrinsic) : ofName? function.tag = some function := by
  cases function <;> rfl

end Intrinsic

end StepGraph
