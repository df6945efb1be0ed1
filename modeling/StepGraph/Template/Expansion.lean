/-
Writing a compiled plan back into its template.

Expanding a template replaces a plan that is still a list of steps by its
graph and leaves everything else as it is.
-/
import StepGraph.Template.Index
import StepGraph.Plan.Compiler

namespace StepGraph.Template

open StepGraph.Plan (Compiler Recorded)

/-- Why an expansion failed: the plan was not found, or it does not compile. -/
inductive ExpansionFault where
  | template (fault : Template.Fault)
  | plan (fault : Plan.Fault)
deriving DecidableEq

/-- The wording of a failed expansion is that of its cause. -/
def ExpansionFault.message : ExpansionFault → String
  | .template fault => fault.message
  | .plan fault => fault.message

/-- Where the payload of a plan resource stands in the template. -/
def Index.payloadPath (index : Index) (name : String) : List String :=
  ["Resources", name, "Properties", index.settings.payloadKey]

/-- The template with its plan compiled. -/
def Index.recordExpand (index : Index) (c : Compiler) : Recorded ExpansionFault Document := do
  match ← .silent (index.plan?.mapError .template) with
  | none => return index.template
  | some plan =>
      match plan.format with
      | .stateLanguage => return index.template
      | .simple => do
          let definition ← (c.recordDefinition plan.payload).mapError .plan
          return index.template.replaceAt (index.payloadPath plan.name) definition

def Index.expand (index : Index) (c : Compiler) : Except ExpansionFault Document :=
  (index.recordExpand c).result

/-- Indexes a template and compiles its plan. -/
def expand (settings : Settings) (c : Compiler) (template : Document) :
    Except ExpansionFault Document := do
  let index ← (Index.build settings template).mapError .template
  index.expand c

end StepGraph.Template
