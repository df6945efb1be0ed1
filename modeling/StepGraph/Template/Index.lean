/-
Looking up resources of a template.

A template is an object whose `Resources` are objects by name, each with a
`Type` and `Properties`.  An index over a template knows which types mark
the deployment plan and the runners and under which property the plan's
payload stands.  At most one resource may be the plan.
-/
import StepGraph.Template.Fault

namespace StepGraph.Template

/-- Which resources and properties an index looks for. -/
structure Settings where
  planType : String := "Attini::Deploy::DeploymentPlan"
  runnerType : String := "Attini::Deploy::Runner"
  payloadKey : String := "DeploymentPlan"

/-- A template with its resources at hand. -/
structure Index where
  template : Document
  resources : Fields Document
  settings : Settings

/-- How a plan is written: as a list of steps, or already as a graph of states. -/
inductive PlanFormat where
  | simple
  | stateLanguage
deriving DecidableEq

/-- The name of a plan format. -/
def PlanFormat.text : PlanFormat → String
  | .simple => "simple"
  | .stateLanguage => "state-language"

/-- The deployment plan of a template. -/
structure DeploymentPlan where
  name : String
  resource : Document
  payload : Document
  format : PlanFormat

namespace Index

/-- The index over a template; one without resources is taken as having no resource. -/
def build (settings : Settings) : Document → Except Fault Index
  | .object fields =>
      match Fields.get? fields "Resources" with
      | none => .ok ⟨.object fields, [], settings⟩
      | some (.object resources) => .ok ⟨.object fields, resources, settings⟩
      | some other => .error (.badResources other.kind)
  | template => .error (.notAnObject template.kind)

/-- The resources of a type, in authored order. -/
def ofType (index : Index) (type : String) : Fields Document :=
  List.filter (fun resource => resource.2.textAt? "Type" = some type) index.resources

/-- The names of the runners, in the order of their characters. -/
def runners (index : Index) : List String :=
  (Fields.names (index.ofType index.settings.runnerType)).mergeSort fun a b => a ≤ b

/-- The payload in a plan resource. -/
def payload? (index : Index) (resource : Document) : Option Document :=
  (resource.field? "Properties").bind fun properties =>
    properties.field? index.settings.payloadKey

/-- The format that a payload has by its kind. -/
def formatOf? : Document → Option PlanFormat
  | .list _ => some .simple
  | .object _ => some .stateLanguage
  | _ => none

/-- The deployment plan, if the template has one. -/
def plan? (index : Index) : Except Fault (Option DeploymentPlan) :=
  match index.ofType index.settings.planType with
  | [] => .ok none
  | [(name, resource)] =>
      match index.payload? resource with
      | none => .error (.noPayload name index.settings.payloadKey)
      | some payload =>
          match formatOf? payload with
          | none => .error (.noPayload name index.settings.payloadKey)
          | some format => .ok (some ⟨name, resource, payload, format⟩)
  | resources => .error (.ambiguousPlan (Fields.names resources))

/-- The deployment plan, which must be there. -/
def plan (index : Index) : Except Fault DeploymentPlan := do
  match ← index.plan? with
  | none => .error .noPlan
  | some plan => .ok plan

end Index

end StepGraph.Template
