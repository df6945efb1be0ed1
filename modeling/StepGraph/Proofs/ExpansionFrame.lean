/-
Expanding rewrites the payload of the plan and nothing else.

The plan is found by the types of the resources and written back by its name.
As no two resources have one name, the two ways lead to the same place.  An
expansion fails if the plan is not found or does not compile, and for no other
reason.
-/
import StepGraph.Proofs.ExpandedSearch
import StepGraph.Proofs.Paths

namespace StepGraph.Template

open StepGraph.Plan (Compiler)

/-- What expanding a template comes to: it fails with the fault of the search for the plan or of
the compilation; it leaves the template as it is where nothing is to be compiled; and otherwise
it puts the definition in the place of the payload. -/
structure ExpandsPayload (c : Compiler) (template : Document) (index : Index) : Prop where
  fails : ∀ fault, index.expand c = .error fault ↔
    (∃ cause, index.plan? = .error cause ∧ fault = .template cause) ∨
      ∃ plan cause, index.plan? = .ok (some plan) ∧ plan.format = .simple ∧
        c.definition plan.payload = .error cause ∧ fault = .plan cause
  unplanned : index.plan? = .ok none → index.expand c = .ok template
  compiled : ∀ plan, index.plan? = .ok (some plan) → plan.format = .stateLanguage →
    index.expand c = .ok template
  rewritten : ∀ plan definition, index.plan? = .ok (some plan) → plan.format = .simple →
    c.definition plan.payload = .ok definition →
    ∃ expanded, index.expand c = .ok expanded ∧
      Document.ReplacedAt
        [.field "Resources", .field plan.name, .field "Properties",
          .field index.settings.payloadKey]
        plan.payload definition template expanded

/-- An expansion fails if the plan is not found or, being a list of steps, does not compile. -/
theorem Index.expand_eq_error_iff {index : Index} {c : Compiler} {fault : ExpansionFault} :
    index.expand c = .error fault ↔
      (∃ cause, index.plan? = .error cause ∧ fault = .template cause) ∨
        ∃ plan cause, index.plan? = .ok (some plan) ∧ plan.format = .simple ∧
          c.definition plan.payload = .error cause ∧ fault = .plan cause := by
  cases hp : index.plan? with
  | error cause =>
      rw [Index.expand_of_error hp]
      simp [eq_comm]
  | ok found =>
      cases found with
      | none =>
          rw [Index.expand_of_none hp]
          simp
      | some plan =>
          cases hf : plan.format with
          | stateLanguage =>
              rw [Index.expand_of_stateLanguage hp hf]
              simp [hf]
          | simple =>
              rw [Index.expand_of_simple hp hf]
              cases hd : c.definition plan.payload with
              | error cause => simp [hf, hd, Except.mapError, Except.map, eq_comm]
              | ok definition => simp [hd, Except.mapError, Except.map]

/-- The payload stands where an expansion writes to. -/
theorem Index.at?_payloadPath {settings : Settings} {template : Document} {index : Index}
    {plan : DeploymentPlan} (hd : template.Distinct)
    (hb : Index.build settings template = .ok index) (hp : index.plan? = .ok (some plan)) :
    template.at? ((index.payloadPath plan.name).map .field) = some plan.payload := by
  have hget := Index.get?_plan hd hb hp
  obtain ⟨-, hpayload, -⟩ := Index.plan?_eq_some_iff.mp hp
  obtain ⟨properties, hproperties, hkey⟩ := Option.bind_eq_some_iff.mp hpayload
  obtain ⟨hmem, -⟩ := Index.plan_mem hp
  have hfield : ∀ (document : Document) (name : String),
      document.child? (.field name) = document.field? name := by
    intro document name
    cases document <;> rfl
  obtain ⟨-, -, hnone | hresources⟩ := Index.build_eq_ok hb
  · rw [hnone] at hmem
    cases hmem
  · simp only [Index.payloadPath, List.map_cons, List.map_nil, Document.at?_cons, hfield]
    rw [hresources, Option.bind_some, Document.field?, hget, Option.bind_some, hproperties,
      Option.bind_some, hkey]
    rfl

/-- Expanding a template rewrites the payload of its plan and nothing else.  No object of the
template may have a name twice; none does in what is read (`Source.parse_distinct`). -/
theorem expandsPayload_of_build {settings : Settings} {template : Document} {index : Index}
    (c : Compiler) (hd : template.Distinct)
    (hb : Index.build settings template = .ok index) : ExpandsPayload c template index := by
  obtain ⟨rfl, -, -⟩ := Index.build_eq_ok hb
  refine ⟨?_, ?_, ?_, ?_⟩
  · intro fault
    exact Index.expand_eq_error_iff
  · intro hp
    exact Index.expand_of_none hp
  · intro plan hp hf
    exact Index.expand_of_stateLanguage hp hf
  · intro plan definition hp hf hc
    have hexpand := Index.expand_of_simple (c := c) hp hf
    rw [hc] at hexpand
    exact ⟨_, hexpand, Document.replacedAt_replaceAt definition (Index.at?_payloadPath hd hb hp)⟩

/-- The template of `forkedPlan` is expanded like this. -/
theorem forkedTemplate_expandsPayload :
    forkedTemplate.Distinct ∧
      Index.build {} forkedTemplate =
        .ok ⟨forkedTemplate, [("Rollout", forkedResource)], {}⟩ ∧
      ExpandsPayload {} forkedTemplate ⟨forkedTemplate, [("Rollout", forkedResource)], {}⟩ := by
  have hd : forkedTemplate.Distinct := by
    simp [forkedTemplate, forkedResource, Plan.forkedPlan, Fields.names]
  exact ⟨hd, rfl, expandsPayload_of_build {} hd rfl⟩

end StepGraph.Template
