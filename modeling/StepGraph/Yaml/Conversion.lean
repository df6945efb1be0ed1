/-
From YAML values to documents.

A short tag becomes the intrinsic function it stands for, written in full,
and keys become texts.  What a document tree cannot hold is an obstacle: a
tag that stands for no function, a number that is not finite, and a key with
parts of its own.  The first obstacle counts, a key coming before its value
and a tag before its operand.
-/
import StepGraph.Intrinsic
import StepGraph.Yaml.Description

namespace StepGraph.Yaml

/-- What a document tree cannot hold. -/
inductive Obstacle where
  /-- A short tag, by its name, that stands for no function. -/
  | unknownTag (name : String)
  /-- A number that is not finite. -/
  | unbounded (numeral : Numeral)
  /-- A key that is a sequence, a mapping or tagged. -/
  | compoundKey (key : Value)

namespace Value

def keyText : Value → Except Obstacle String
  | .string text => .ok text
  | .number numeral => .ok numeral.text
  | .bool value => .ok (boolText value)
  | .null => .ok "null"
  | key => .error (.compoundKey key)

def finiteNumber : Numeral → Except Obstacle Document
  | .finite value => .ok (.number value)
  | numeral => .error (.unbounded numeral)

/-- The operand of a function in its short form, where that is not just the value. -/
def shortOperand? : Intrinsic → Value → Option Document
  | .getAtt, .string path => some (Intrinsic.attributeOperand path)
  | _, _ => none

def functionOf (name : String) : Except Obstacle Intrinsic :=
  match Intrinsic.ofTag? ("!" ++ name) with
  | some function => .ok function
  | none => .error (.unknownTag name)

mutual

def toDocument : Value → Except Obstacle Document
  | .null => .ok .null
  | .bool value => .ok (.bool value)
  | .number numeral => finiteNumber numeral
  | .string text => .ok (.string text)
  | .sequence items => do return .list (← toItems items)
  | .mapping entries => do return .object (← toFields [] entries)
  | .tagged name value => do
      let function ← functionOf name
      match shortOperand? function value with
      | some operand => return function.apply operand
      | none => return function.apply (← toDocument value)

def toItems : List Value → Except Obstacle (List Document)
  | [] => .ok []
  | item :: rest => do
      let first ← toDocument item
      return first :: (← toItems rest)

/-- Fields and behind them those that entries stand for.  A key whose text is there already
keeps that field's place and replaces its value. -/
def toFields (fields : List (String × Document)) :
    List (Value × Value) → Except Obstacle (List (String × Document))
  | [] => .ok fields
  | (key, value) :: rest => do
      let name ← keyText key
      let content ← toDocument value
      toFields (Fields.insert fields name content) rest

end

end Value

end StepGraph.Yaml
