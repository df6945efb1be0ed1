/-
The shape of an authored step.

A step is plain, a fan-out over the lists in its `Branches`, or a choice
between the lists in `IsTrue` and `IsFalse`.  A text in `Type` decides the
shape; without one the fields that are present do.
-/
import StepGraph.Plan.Fault

namespace StepGraph.Plan

/-- The shape of a step. -/
inductive Shape where
  | plain
  | parallel
  | choice
deriving DecidableEq

/-- Whether a step carries a field that only a choice has. -/
def hasChoiceField (fields : Fields Document) : Bool :=
  fields.has "IsTrue" || fields.has "IsFalse"

/-- The text in a step's `Type`. -/
def typeOf? (fields : Fields Document) : Option String :=
  (fields.get? "Type").bind Document.text?

/-- The shape that a step's fields give it. -/
def Shape.of (fields : Fields Document) : Shape :=
  match typeOf? fields with
  | some type =>
      if type = "Parallel" then .parallel else if type = "Choice" then .choice else .plain
  | none =>
      if fields.has "Branches" then .parallel
      else if hasChoiceField fields then .choice
      else .plain

/-- Whether a step without any `Type` carries the fields of both nesting shapes. -/
def conflicts (fields : Fields Document) : Bool :=
  !fields.has "Type" && fields.has "Branches" && hasChoiceField fields

/-- The check that a slot holds a list. -/
def checkSlot (name : String) (slot : Slot) (fields : Fields Document) : Except Fault Unit :=
  match fields.get? slot.text with
  | some (.list _) => .ok ()
  | some other => .error (.notASubPlan name slot other.kind)
  | none => .error (.notASubPlan name slot .nothing)

/-- The checks on the fields that a step's shape needs, before its nested steps are
looked at. -/
def checkShape (name : String) (fields : Fields Document) : Except Fault Unit :=
  if conflicts fields then .error (.conflictingShape name)
  else
    match Shape.of fields with
    | .plain => .ok ()
    | .parallel => checkSlot name .branches fields
    | .choice =>
        if fields.has "IsTrue" then do
          checkSlot name .isTrue fields
          if fields.has "IsFalse" then checkSlot name .isFalse fields
        else .error (.missingIsTrue name)

end StepGraph.Plan
