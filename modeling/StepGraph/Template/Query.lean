/-
Questions about a template and their answers.
-/
import StepGraph.Template.Expansion
import StepGraph.Template.Steps

namespace StepGraph.Template

open StepGraph.Plan (Compiler)

/-- A question about a template. -/
inductive Query where
  | runners
  /-- The deployment plan, if there is one. -/
  | plan
  /-- The deployment plan, which must be there. -/
  | requiredPlan
  | steps (wanted : List String)
  | expansion (compiler : Compiler)

/-- The answer to a question about a template. -/
inductive Answer where
  | runners (names : List String)
  | plan (plan : Option DeploymentPlan)
  | steps (groups : StepGroups)
  | expansion (template : Document)

/-- Answers a question. -/
def Index.answer (index : Index) : Query → Except ExpansionFault Answer
  | .runners => .ok (.runners index.runners)
  | .plan => (index.plan?.map .plan).mapError .template
  | .requiredPlan => (index.plan.map fun plan => .plan (some plan)).mapError .template
  | .steps wanted => ((index.steps wanted).map .steps).mapError .template
  | .expansion compiler => (index.expand compiler).map .expansion

end StepGraph.Template
