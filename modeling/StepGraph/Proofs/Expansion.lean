/-
Finding the plan of a template, before and after it is expanded.

What is looked up of a template comes down to three facts: which resources
there are, which of them has the plan's type, and what stands in it as
payload.  Expanding writes to where the payload was found, so the expanded
template is searched along the same way.
-/
import StepGraph.Proofs.Compilation
import StepGraph.Proofs.DistinctNames
import StepGraph.Template.Query

namespace StepGraph.Template

open StepGraph.Plan (Compiler Recorded)

/-! ## What is found in a template -/

theorem Index.build_eq_ok {settings : Settings} {template : Document} {index : Index}
    (h : Index.build settings template = .ok index) :
    index.template = template ∧ index.settings = settings ∧
      (index.resources = [] ∨ template.field? "Resources" = some (.object index.resources)) := by
  unfold Index.build at h
  split at h
  · split at h
    · simp only [Except.ok.injEq] at h
      subst h
      exact ⟨rfl, rfl, .inl rfl⟩
    · rename_i hr
      simp only [Except.ok.injEq] at h
      subst h
      exact ⟨rfl, rfl, .inr hr⟩
    · simp at h
  · simp at h

theorem Index.build_of_resources (settings : Settings) {template : Document}
    {resources : Fields Document} (h : template.field? "Resources" = some (.object resources)) :
    Index.build settings template = .ok ⟨template, resources, settings⟩ := by
  cases template with
  | object fields =>
      rw [Document.field?] at h
      rw [Index.build, h]
  | _ => simp [Document.field?] at h

/-- The plan is the only resource of its type, and holds a payload of some format. -/
theorem Index.plan?_eq_some_iff {index : Index} {plan : DeploymentPlan} :
    index.plan? = .ok (some plan) ↔
      index.ofType index.settings.planType = [(plan.name, plan.resource)] ∧
        index.payload? plan.resource = some plan.payload ∧
        Index.formatOf? plan.payload = some plan.format := by
  obtain ⟨name, resource, payload, format⟩ := plan
  unfold Index.plan?
  constructor
  · intro h
    split at h
    · simp at h
    · rename_i found hfound
      split at h
      · simp at h
      · rename_i value hvalue
        split at h
        · simp at h
        · rename_i kind hkind
          simp only [Except.ok.injEq, Option.some.injEq, DeploymentPlan.mk.injEq] at h
          obtain ⟨rfl, rfl, rfl, rfl⟩ := h
          exact ⟨hfound, hvalue, hkind⟩
    · simp at h
  · rintro ⟨hfound, hvalue, hkind⟩
    simp only [hfound, hvalue, hkind]

theorem Index.mem_ofType_iff {index : Index} {type : String} {resource : String × Document} :
    resource ∈ index.ofType type ↔
      resource ∈ index.resources ∧ resource.2.textAt? "Type" = some type := by
  rw [Index.ofType, List.mem_filter]
  simp

theorem Index.plan_mem {index : Index} {plan : DeploymentPlan}
    (hp : index.plan? = .ok (some plan)) :
    (plan.name, plan.resource) ∈ index.resources ∧
      plan.resource.textAt? "Type" = some index.settings.planType := by
  obtain ⟨hfound, -, -⟩ := Index.plan?_eq_some_iff.mp hp
  have hmem : (plan.name, plan.resource) ∈ index.ofType index.settings.planType := by
    rw [hfound]
    exact List.mem_cons_self
  exact Index.mem_ofType_iff.mp hmem

/-- The plan is found again under its name, for no other resource has the name. -/
theorem Index.get?_plan {settings : Settings} {template : Document} {index : Index}
    {plan : DeploymentPlan} (hd : template.Distinct)
    (hb : Index.build settings template = .ok index) (hp : index.plan? = .ok (some plan)) :
    index.resources.get? plan.name = some plan.resource := by
  obtain ⟨hmem, -⟩ := Index.plan_mem hp
  obtain ⟨-, -, hnone | hsome⟩ := Index.build_eq_ok hb
  · simp [hnone] at hmem
  · exact Fields.get?_of_mem (Document.distinct_object_iff.mp (hd.field? hsome)).1 hmem

/-! ## Storing in a resource -/

/-- Storing below a resource changes this resource and no other. -/
theorem Index.build_replaceAt {settings : Settings} {template : Document} {index : Index}
    {name : String} {resource : Document} (hb : Index.build settings template = .ok index)
    (hr : index.resources.get? name = some resource) (path : List String) (new : Document) :
    Index.build settings (template.replaceAt ("Resources" :: name :: path) new) =
      .ok ⟨template.replaceAt ("Resources" :: name :: path) new,
        index.resources.replace name (resource.replaceAt path new), settings⟩ := by
  obtain ⟨-, -, hnone | hsome⟩ := Index.build_eq_ok hb
  · simp [hnone] at hr
  · refine Index.build_of_resources settings ?_
    rw [Document.field?_replaceAt_self, hsome, Option.map_some, Document.replaceAt_object hr]

/-- Storing a payload leaves the type of a resource as it is. -/
theorem textAt?_replaceAt_properties (resource : Document) (path : List String)
    (new : Document) :
    (resource.replaceAt ("Properties" :: path) new).textAt? "Type" = resource.textAt? "Type" := by
  rw [Document.textAt?, Document.field?_replaceAt_of_ne _ _ _ (by decide), Document.textAt?]

theorem Index.payload?_replaceAt {index : Index} {resource old : Document}
    (h : index.payload? resource = some old) (new : Document) :
    index.payload? (resource.replaceAt ["Properties", index.settings.payloadKey] new) =
      some new := by
  obtain ⟨properties, hp, hk⟩ := Option.bind_eq_some_iff.mp h
  rw [Index.payload?, Document.field?_replaceAt_self, hp, Option.map_some, Option.bind_some,
    Document.field?_replaceAt_self, hk]
  rfl

/-- With another payload in its place the plan is found where it was. -/
theorem Index.plan?_replaceAt {settings : Settings} {template new : Document} {index : Index}
    {plan : DeploymentPlan} {format : PlanFormat} (hd : template.Distinct)
    (hb : Index.build settings template = .ok index) (hp : index.plan? = .ok (some plan))
    (hf : Index.formatOf? new = some format) :
    ∃ index' resource,
      Index.build settings (template.replaceAt (index.payloadPath plan.name) new) = .ok index' ∧
      index'.plan? = .ok (some ⟨plan.name, resource, new, format⟩) := by
  have hget := Index.get?_plan hd hb hp
  obtain ⟨-, rfl, -⟩ := Index.build_eq_ok hb
  obtain ⟨hfound, hpayload, -⟩ := Index.plan?_eq_some_iff.mp hp
  obtain ⟨-, htype⟩ := Index.plan_mem hp
  have hsame := textAt?_replaceAt_properties plan.resource [index.settings.payloadKey] new
  have hreplaced := Fields.filter_replace hget
    (p := fun resource => resource.textAt? "Type" = some index.settings.planType)
    (decide_eq_true htype) (decide_eq_true (hsame.trans htype))
  refine ⟨_, plan.resource.replaceAt ["Properties", index.settings.payloadKey] new,
    Index.build_replaceAt hb hget ["Properties", index.settings.payloadKey] new, ?_⟩
  refine Index.plan?_eq_some_iff.mpr ⟨?_, Index.payload?_replaceAt hpayload new, hf⟩
  rw [Index.ofType] at hfound ⊢
  rw [hreplaced, hfound, Fields.replace, if_pos rfl]

/-! ## Expanding -/

theorem formatOf?_definition {c : Compiler} {plan definition : Document}
    (h : c.definition plan = .ok definition) :
    Index.formatOf? definition = some .stateLanguage := by
  obtain ⟨_, _, _, -, -, -, rfl⟩ := Plan.compiles_of_definition h
  rfl

section Cases

variable {index : Index} {c : Compiler}

theorem Index.recordExpand_of_error {fault : Fault} (h : index.plan? = .error fault) :
    index.recordExpand c = .silent (.error (.template fault)) := by
  rw [Index.recordExpand, h]
  exact Recorded.silent_error_bind _ _

theorem Index.recordExpand_of_none (h : index.plan? = .ok none) :
    index.recordExpand c = .silent (.ok index.template) := by
  rw [Index.recordExpand, h]
  exact Recorded.silent_ok_bind _ _

theorem Index.recordExpand_of_stateLanguage {plan : DeploymentPlan}
    (h : index.plan? = .ok (some plan)) (hf : plan.format = .stateLanguage) :
    index.recordExpand c = .silent (.ok index.template) := by
  rw [Index.recordExpand, h]
  refine (Recorded.silent_ok_bind _ _).trans ?_
  simp only [hf]
  rfl

/-- A plan that is a list of steps is compiled, and its graph stored where the steps stood. -/
theorem Index.recordExpand_of_simple {plan : DeploymentPlan} (h : index.plan? = .ok (some plan))
    (hf : plan.format = .simple) :
    index.recordExpand c = ((c.recordDefinition plan.payload).mapError .plan).map
      (index.template.replaceAt (index.payloadPath plan.name)) := by
  rw [Index.recordExpand, h]
  refine (Recorded.silent_ok_bind _ _).trans ?_
  simp only [hf]
  exact Recorded.bind_pure _ _

theorem Index.expand_of_error {fault : Fault} (h : index.plan? = .error fault) :
    index.expand c = .error (.template fault) :=
  congrArg Recorded.result (Index.recordExpand_of_error h)

theorem Index.expand_of_none (h : index.plan? = .ok none) :
    index.expand c = .ok index.template :=
  congrArg Recorded.result (Index.recordExpand_of_none h)

theorem Index.expand_of_stateLanguage {plan : DeploymentPlan}
    (h : index.plan? = .ok (some plan)) (hf : plan.format = .stateLanguage) :
    index.expand c = .ok index.template :=
  congrArg Recorded.result (Index.recordExpand_of_stateLanguage h hf)

theorem Index.expand_of_simple {plan : DeploymentPlan} (h : index.plan? = .ok (some plan))
    (hf : plan.format = .simple) :
    index.expand c = ((c.definition plan.payload).mapError .plan).map
      (index.template.replaceAt (index.payloadPath plan.name)) :=
  congrArg Recorded.result (Index.recordExpand_of_simple h hf)

end Cases

/-- The graph of the steps is stored where the steps stood. -/
theorem expand_simple {settings : Settings} {c : Compiler} {template definition : Document}
    {index : Index} {plan : DeploymentPlan} {steps : List Document}
    (hb : Index.build settings template = .ok index) (hp : index.plan? = .ok (some plan))
    (hs : plan.payload = .list steps) (hc : c.definition plan.payload = .ok definition) :
    expand settings c template =
      .ok (template.replaceAt (index.payloadPath plan.name) definition) := by
  obtain ⟨rfl, -, -⟩ := Index.build_eq_ok hb
  obtain ⟨-, -, hformat⟩ := Index.plan?_eq_some_iff.mp hp
  have hsimple : plan.format = .simple := by
    rw [hs, Index.formatOf?, Option.some.injEq] at hformat
    exact hformat.symm
  have hexpand := Index.expand_of_simple (c := c) hp hsimple
  rw [hc] at hexpand
  simp only [expand, hb, mapError_ok, bind, Except.bind]
  exact hexpand

end StepGraph.Template
