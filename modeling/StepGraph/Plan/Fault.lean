/-
What can be wrong with an authored plan.

A fault names the place where it was found: a step list by its scope, a step
by its name, a nested list by its slot in the step that holds it.
-/
import StepGraph.Document

namespace StepGraph.Plan

/-- A place in a step that holds nested steps. -/
inductive Slot where
  | branches
  | branch (index : Nat)
  | isTrue
  | isFalse
deriving DecidableEq

/-- A slot as it is written in a message. -/
def Slot.text : Slot → String
  | .branches => "Branches"
  | .branch index => "Branches[" ++ toString index ++ "]"
  | .isTrue => "IsTrue"
  | .isFalse => "IsFalse"

/-- A step list: the outermost one, or the one in a slot of a named step. -/
inductive Scope where
  | root
  | slot (step : String) (slot : Slot)
deriving DecidableEq

/-- A scope as it is written in a message. -/
def Scope.text : Scope → String
  | .root => "DeploymentPlan"
  | .slot step place => step ++ "." ++ place.text

/-- What can be wrong with an authored plan. -/
inductive Fault where
  /-- The plan is no list. -/
  | notAList (found : Kind)
  /-- A step list is empty. -/
  | emptyList (scope : Scope)
  /-- An entry of a step list is no object. -/
  | notAStep (scope : Scope) (index : Nat) (found : Kind)
  /-- A step has no name; the step before it, if any, tells where. -/
  | unnamed (scope : Scope) (after : Option String)
  /-- A step's name is no text, or an empty one. -/
  | badName (scope : Scope) (index : Nat)
  /-- A name is given to a second step. -/
  | duplicateName (name : String)
  /-- A step says itself what follows it. -/
  | chained (name : String) (field : String)
  /-- A step without a type carries the fields of both nesting shapes. -/
  | conflictingShape (name : String)
  /-- A choice has no steps for the true case. -/
  | missingIsTrue (name : String)
  /-- A slot that must hold a step list holds something else. -/
  | notASubPlan (name : String) (slot : Slot) (found : Kind)
deriving DecidableEq

/-- The wording of a fault. -/
def Fault.message : Fault → String
  | .notAList found =>
      "The deployment plan must be a list of steps, but found " ++ found.phrase
  | .emptyList scope => "'" ++ scope.text ++ "' contains no steps"
  | .notAStep scope index found =>
      "Step " ++ toString index ++ " in '" ++ scope.text ++ "' must be an object, but found " ++
        found.phrase
  | .unnamed scope none =>
      "The first step in '" ++ scope.text ++ "' is missing the required 'Name' field"
  | .unnamed scope (some previous) =>
      "The step following '" ++ previous ++ "' in '" ++ scope.text ++
        "' is missing the required 'Name' field"
  | .badName scope index =>
      "Step " ++ toString index ++ " in '" ++ scope.text ++
        "' has an invalid Name: expected a non-empty string"
  | .duplicateName name =>
      "The step name '" ++ name ++ "' is used more than once in the deployment plan"
  | .chained name field =>
      "Step '" ++ name ++ "' declares '" ++ field ++
        "', which is not allowed: steps are chained in the order they are listed"
  | .conflictingShape name =>
      "Step '" ++ name ++
        "' has both 'Branches' and 'IsTrue'/'IsFalse'; declare a 'Type' to choose one"
  | .missingIsTrue name => "Choice step '" ++ name ++ "' is missing its 'IsTrue' branch"
  | .notASubPlan name slot found =>
      "'" ++ slot.text ++ "' of step '" ++ name ++ "' must be a list of steps, but found " ++
        found.phrase

end StepGraph.Plan
