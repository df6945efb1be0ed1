/-
What can be wrong with a template that is searched for its plan.
-/
import StepGraph.Document

namespace StepGraph.Template

/-- What can be wrong with a template. -/
inductive Fault where
  /-- The template is no object. -/
  | notAnObject (found : Kind)
  /-- The resources are no object. -/
  | badResources (found : Kind)
  /-- More than one resource is a deployment plan. -/
  | ambiguousPlan (names : List String)
  /-- No resource is a deployment plan. -/
  | noPlan
  /-- The plan resource holds neither a list nor an object where its payload belongs. -/
  | noPayload (name : String) (key : String)
  /-- The plan is still a list of steps. -/
  | notCompiled (name : String)
  /-- The plan's payload has no object of states. -/
  | noStates (name : String)
deriving DecidableEq

/-- The wording of a fault. -/
def Fault.message : Fault → String
  | .notAnObject found => "The template must be an object, but found " ++ found.phrase
  | .badResources found =>
      "The template 'Resources' section must be an object, but found " ++ found.phrase
  | .ambiguousPlan names =>
      "The template declares more than one deployment plan: " ++ String.intercalate ", " names
  | .noPlan => "The template does not declare a deployment plan"
  | .noPayload name key =>
      "Deployment plan '" ++ name ++ "' has no '" ++ key ++ "' list or object in its Properties"
  | .notCompiled name =>
      "Deployment plan '" ++ name ++
        "' is written in simplified syntax and must be compiled before it can be indexed"
  | .noStates name => "Deployment plan '" ++ name ++ "' has no 'States' object"

end StepGraph.Template
