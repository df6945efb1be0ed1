/-
How the plan of a template is looked up.

The resources with the type of a plan are counted before anything is asked of
them.  If there is one, it needs a payload that is a list or an object; what
is in the payload does not matter.  A search for states asks for the plan
first and for its states then, and whether it fails does not depend on what it
is to find.

The order of the resources shows only in the names of several plans.
-/
import StepGraph.Proofs.ExpandedSearch

namespace StepGraph.Template

/-! ## The rule -/

/-- What is wrong with a template over which there is no index. -/
inductive NoIndex (template : Document) : Fault → Prop
  | notAnObject : template.kind ≠ .object → NoIndex template (.notAnObject template.kind)
  | badResources {value : Document} : template.field? "Resources" = some value →
      value.kind ≠ .object → NoIndex template (.badResources value.kind)

/-- The resources of a template, none if it has no object of them. -/
def resourcesOf (template : Document) : Fields Document :=
  ((template.field? "Resources").bind Document.fields?).getD []

/-- The resources with the type of a plan, in authored order. -/
def planResources (settings : Settings) (template : Document) : Fields Document :=
  (resourcesOf template).filter fun resource => resource.2.textAt? "Type" = some settings.planType

/-- A payload stands in a resource: under its key in an object of properties. -/
def HasPayload (settings : Settings) (resource payload : Document) : Prop :=
  ∃ properties, resource.field? "Properties" = some (.object properties) ∧
    Fields.get? properties settings.payloadKey = some payload

/-- Why a resource holds no payload of a plan. -/
inductive LacksPayload (settings : Settings) (resource : Document) : Prop
  | noProperties : (∀ properties, resource.field? "Properties" ≠ some (.object properties)) →
      LacksPayload settings resource
  | noKey {properties : Fields Document} :
      resource.field? "Properties" = some (.object properties) →
      Fields.get? properties settings.payloadKey = none → LacksPayload settings resource
  | otherKind {payload : Document} : HasPayload settings resource payload →
      payload.kind ≠ .list → payload.kind ≠ .object → LacksPayload settings resource

/-- What a lookup comes to, by the resources with the type of a plan. -/
inductive LookedUp (settings : Settings) :
    Fields Document → Except Fault (Option DeploymentPlan) → Prop
  | none : LookedUp settings [] (.ok none)
  | several {resources : Fields Document} : 2 ≤ resources.length →
      LookedUp settings resources (.error (.ambiguousPlan (Fields.names resources)))
  | malformed {name : String} {resource : Document} : LacksPayload settings resource →
      LookedUp settings [(name, resource)] (.error (.noPayload name settings.payloadKey))
  | simple {name : String} {resource : Document} {steps : List Document} :
      HasPayload settings resource (.list steps) →
      LookedUp settings [(name, resource)]
        (.ok (some ⟨name, resource, .list steps, .simple⟩))
  | stateLanguage {name : String} {resource : Document} {fields : Fields Document} :
      HasPayload settings resource (.object fields) →
      LookedUp settings [(name, resource)]
        (.ok (some ⟨name, resource, .object fields, .stateLanguage⟩))

/-- What is wrong with a search, by what the lookup of the plan comes to. -/
inductive SearchFails : Except Fault (Option DeploymentPlan) → Fault → Prop
  | lookup {fault : Fault} : SearchFails (.error fault) fault
  | noPlan : SearchFails (.ok none) .noPlan
  | notCompiled {plan : DeploymentPlan} : plan.format = .simple →
      SearchFails (.ok (some plan)) (.notCompiled plan.name)
  | noStates {plan : DeploymentPlan} : plan.format = .stateLanguage →
      (∀ states, plan.payload.field? "States" ≠ some (.object states)) →
      SearchFails (.ok (some plan)) (.noStates plan.name)

/-- Two outcomes differ at most in the order in which several plans are named. -/
inductive SameButOrder {α : Type} : Except Fault α → Except Fault α → Prop
  | same (outcome : Except Fault α) : SameButOrder outcome outcome
  | named {names others : List String} : names.Perm others →
      SameButOrder (.error (.ambiguousPlan names)) (.error (.ambiguousPlan others))

/-- An index looks its plan up by the rule, fails to search it by the rule, and answers like every
index over the same resources in another order. -/
structure LooksUp (settings : Settings) (template : Document) (index : Index) : Prop where
  plan_iff : ∀ outcome, index.plan? = outcome ↔
    LookedUp settings (planResources settings template) outcome
  fails_iff : ∀ wanted fault, index.steps wanted = .error fault ↔
    ∃ outcome, LookedUp settings (planResources settings template) outcome ∧
      SearchFails outcome fault
  permuted : ∀ other index', Index.build settings other = .ok index' →
    (resourcesOf template).Perm (resourcesOf other) →
    SameButOrder index.plan? index'.plan? ∧
      ∀ wanted, SameButOrder (index.steps wanted) (index'.steps wanted)

/-! ## Payloads -/

/-- A payload has a format if it is a list or an object. -/
theorem Index.formatOf?_eq_none_iff {payload : Document} :
    Index.formatOf? payload = none ↔ payload.kind ≠ .list ∧ payload.kind ≠ .object := by
  cases payload <;> simp [Index.formatOf?, Document.kind]

section Payloads

variable {settings : Settings} {resource payload other : Document}

theorem HasPayload.unique (h : HasPayload settings resource payload)
    (h' : HasPayload settings resource other) : payload = other := by
  obtain ⟨properties, hp, hk⟩ := h
  obtain ⟨properties', hp', hk'⟩ := h'
  obtain rfl := Document.object.inj (Option.some.inj (hp.symm.trans hp'))
  exact Option.some.inj (hk.symm.trans hk')

/-- A resource lacks a payload if what stands in the place of one has no format. -/
theorem LacksPayload.formatOf? (h : LacksPayload settings resource)
    (hp : HasPayload settings resource payload) : Index.formatOf? payload = none := by
  cases h with
  | noProperties hnone =>
      obtain ⟨properties, hproperties, -⟩ := hp
      exact absurd hproperties (hnone properties)
  | noKey hproperties hnone =>
      obtain ⟨properties, hproperties', hk⟩ := hp
      obtain rfl := Document.object.inj (Option.some.inj (hproperties.symm.trans hproperties'))
      cases hnone.symm.trans hk
  | otherKind hother hlist hobject =>
      obtain rfl := hp.unique hother
      exact Index.formatOf?_eq_none_iff.mpr ⟨hlist, hobject⟩

theorem Index.payload?_eq_some_iff {index : Index} :
    index.payload? resource = some payload ↔ HasPayload index.settings resource payload := by
  rw [Index.payload?, Option.bind_eq_some_iff]
  constructor
  · rintro ⟨properties, hp, hk⟩
    cases properties with
    | object fields => exact ⟨fields, hp, hk⟩
    | _ => cases hk
  · rintro ⟨properties, hp, hk⟩
    exact ⟨.object properties, hp, hk⟩

theorem Index.lacksPayload_of_none {index : Index} (h : index.payload? resource = none) :
    LacksPayload index.settings resource := by
  by_cases hp : ∃ properties, resource.field? "Properties" = some (.object properties)
  · obtain ⟨properties, hp⟩ := hp
    rw [Index.payload?, hp] at h
    exact .noKey hp h
  · exact .noProperties fun properties hproperties => hp ⟨properties, hproperties⟩

end Payloads

/-! ## The lookup -/

section Lookup

variable {settings : Settings} {resources : Fields Document}

/-- The rule leaves no choice. -/
theorem LookedUp.unique {outcome other : Except Fault (Option DeploymentPlan)}
    (h : LookedUp settings resources outcome) (h' : LookedUp settings resources other) :
    outcome = other := by
  cases h with
  | none =>
      cases h' with
      | none => rfl
      | several hlength => exact absurd hlength (by simp)
  | several hlength =>
      cases h' with
      | none => exact absurd hlength (by simp)
      | several _ => rfl
      | malformed _ | simple _ | stateLanguage _ => exact absurd hlength (by simp)
  | malformed hlacks =>
      cases h' with
      | several hlength => exact absurd hlength (by simp)
      | malformed _ => rfl
      | simple hp | stateLanguage hp => cases hlacks.formatOf? hp
  | simple hp =>
      cases h' with
      | several hlength => exact absurd hlength (by simp)
      | malformed hlacks => cases hlacks.formatOf? hp
      | simple hp' => cases hp.unique hp'; rfl
      | stateLanguage hp' => cases hp.unique hp'
  | stateLanguage hp =>
      cases h' with
      | several hlength => exact absurd hlength (by simp)
      | malformed hlacks => cases hlacks.formatOf? hp
      | simple hp' => cases hp.unique hp'
      | stateLanguage hp' => cases hp.unique hp'; rfl

/-- With one resource the payload decides. -/
theorem Index.lookedUp_single {index : Index} {name : String} {resource : Document}
    (h : index.ofType index.settings.planType = [(name, resource)]) :
    LookedUp index.settings [(name, resource)] index.plan? := by
  simp only [Index.plan?, h]
  cases hp : index.payload? resource with
  | none => exact .malformed (Index.lacksPayload_of_none hp)
  | some payload =>
      have hpayload := Index.payload?_eq_some_iff.mp hp
      cases payload with
      | list steps => exact .simple hpayload
      | object fields => exact .stateLanguage hpayload
      | _ => exact .malformed (.otherKind hpayload nofun nofun)

theorem Index.lookedUp_plan? (index : Index) :
    LookedUp index.settings (index.ofType index.settings.planType) index.plan? := by
  match h : index.ofType index.settings.planType with
  | [] =>
      simp only [Index.plan?, h]
      exact .none
  | [(name, resource)] => exact Index.lookedUp_single h
  | first :: second :: rest =>
      simp only [Index.plan?, h]
      exact .several (by simp)

end Lookup

/-! ## The search -/

theorem SearchFails.unique {outcome : Except Fault (Option DeploymentPlan)} {fault other : Fault}
    (h : SearchFails outcome fault) (h' : SearchFails outcome other) : fault = other := by
  cases h with
  | lookup => cases h'; rfl
  | noPlan => cases h'; rfl
  | notCompiled hf =>
      cases h' with
      | notCompiled _ => rfl
      | noStates hf' _ => cases hf.symm.trans hf'
  | noStates hf _ =>
      cases h' with
      | notCompiled hf' => cases hf.symm.trans hf'
      | noStates _ _ => rfl

/-- A search goes through the states of a plan, or it fails as the outcome of the lookup says. -/
theorem Index.steps_cases (index : Index) (wanted : List String) :
    (∃ plan states, index.plan? = .ok (some plan) ∧ plan.format = .stateLanguage ∧
      plan.payload.field? "States" = some (.object states) ∧
      index.steps wanted = .ok (collect wanted .empty states)) ∨
    ∃ fault, SearchFails index.plan? fault ∧ index.steps wanted = .error fault := by
  simp only [Index.steps, Index.plan]
  cases index.plan? with
  | error fault => exact .inr ⟨fault, .lookup, rfl⟩
  | ok found =>
      cases found with
      | none => exact .inr ⟨.noPlan, .noPlan, rfl⟩
      | some plan =>
          simp only [bind, Except.bind]
          cases hf : plan.format with
          | simple => exact .inr ⟨.notCompiled plan.name, .notCompiled hf, rfl⟩
          | stateLanguage =>
              cases hs : (plan.payload.field? "States").bind Document.fields? with
              | none =>
                  refine .inr ⟨.noStates plan.name, .noStates hf ?_, rfl⟩
                  intro states hstates
                  rw [hstates] at hs
                  cases hs
              | some states =>
                  obtain ⟨value, hvalue, hstates⟩ := Option.bind_eq_some_iff.mp hs
                  cases value with
                  | object fields =>
                      obtain rfl := Option.some.inj hstates
                      exact .inl ⟨plan, _, rfl, hf, hvalue, rfl⟩
                  | _ => cases hstates

theorem Index.steps_eq_error_iff {index : Index} {wanted : List String} {fault : Fault} :
    index.steps wanted = .error fault ↔ SearchFails index.plan? fault := by
  rcases index.steps_cases wanted with
    ⟨plan, states, hp, hf, hstates, hsteps⟩ | ⟨cause, hcause, hsteps⟩
  · rw [hsteps, hp]
    constructor
    · exact nofun
    · intro h
      cases h with
      | notCompiled hf' => cases hf.symm.trans hf'
      | noStates _ hnone => exact absurd hstates (hnone states)
  · rw [hsteps]
    constructor
    · intro h
      obtain rfl := Except.error.inj h
      exact hcause
    · intro h
      rw [hcause.unique h]

/-! ## Resources in another order -/

/-- A search fails with the fault of the lookup. -/
theorem Index.steps_of_plan?_error {index : Index} {fault : Fault}
    (h : index.plan? = .error fault) (wanted : List String) :
    index.steps wanted = .error fault := by
  have hfails : SearchFails index.plan? fault := h ▸ .lookup
  exact Index.steps_eq_error_iff.mpr hfails

/-- What a search comes to depends on the outcome of the lookup only. -/
theorem Index.steps_congr {index other : Index} (h : index.plan? = other.plan?)
    (wanted : List String) : index.steps wanted = other.steps wanted := by
  simp only [Index.steps, Index.plan, h]

/-- Outcomes that follow the rule for the same resources in another order. -/
theorem LookedUp.sameButOrder {settings : Settings} {resources others : Fields Document}
    {outcome other : Except Fault (Option DeploymentPlan)} (h : LookedUp settings resources outcome)
    (h' : LookedUp settings others other) (hp : resources.Perm others) :
    SameButOrder outcome other := by
  have hsingle : ∀ {resource}, [resource].Perm others → others = [resource] :=
    fun hp => List.perm_singleton.mp hp.symm
  cases h with
  | none =>
      obtain rfl := List.nil_perm.mp hp
      exact h'.unique .none ▸ .same _
  | several hlength =>
      have hmany : 2 ≤ others.length := hp.length_eq ▸ hlength
      rw [h'.unique (.several hmany)]
      exact .named (hp.map Prod.fst)
  | malformed hlacks =>
      obtain rfl := hsingle hp
      exact h'.unique (.malformed hlacks) ▸ .same _
  | simple hpayload =>
      obtain rfl := hsingle hp
      exact h'.unique (.simple hpayload) ▸ .same _
  | stateLanguage hpayload =>
      obtain rfl := hsingle hp
      exact h'.unique (.stateLanguage hpayload) ▸ .same _

/-- Searches after lookups that differ in the order of names differ in nothing else. -/
theorem Index.sameButOrder_steps {index other : Index}
    (h : SameButOrder index.plan? other.plan?) (wanted : List String) :
    SameButOrder (index.steps wanted) (other.steps wanted) := by
  generalize hi : index.plan? = outcome at h
  generalize ho : other.plan? = outcome' at h
  cases h with
  | same _ =>
      rw [Index.steps_congr (hi.trans ho.symm) wanted]
      exact .same _
  | named hp =>
      have hindex := Index.steps_of_plan?_error hi wanted
      have hother := Index.steps_of_plan?_error ho wanted
      rw [hindex, hother]
      exact .named hp

/-! ## Indexes -/

theorem NoIndex.unique {template : Document} {fault other : Fault} (h : NoIndex template fault)
    (h' : NoIndex template other) : fault = other := by
  have hfield : ∀ {value}, template.field? "Resources" = some value → template.kind = .object := by
    intro value hv
    cases template <;> first | rfl | cases hv
  cases h with
  | notAnObject hkind =>
      cases h' with
      | notAnObject _ => rfl
      | badResources hv _ => exact absurd (hfield hv) hkind
  | badResources hv _ =>
      cases h' with
      | notAnObject hkind => exact absurd (hfield hv) hkind
      | badResources hv' _ => rw [Option.some.inj (hv.symm.trans hv')]

/-- Either there is an index over the resources of a template, or something is wrong with it. -/
theorem Index.build_cases (settings : Settings) (template : Document) :
    (Index.build settings template = .ok ⟨template, resourcesOf template, settings⟩ ∧
      ∀ fault, ¬ NoIndex template fault) ∨
    ∃ fault, NoIndex template fault ∧ Index.build settings template = .error fault := by
  cases template with
  | object fields =>
      have hobject : ∀ {fault}, NoIndex (.object fields) fault →
          ∃ value, Fields.get? fields "Resources" = some value ∧ value.kind ≠ .object := by
        intro fault h
        cases h with
        | notAnObject hkind => exact absurd rfl hkind
        | badResources hv hkind => exact ⟨_, hv, hkind⟩
      simp only [Index.build, resourcesOf, Document.field?]
      cases hr : Fields.get? fields "Resources" with
      | none =>
          refine .inl ⟨rfl, fun fault h => ?_⟩
          obtain ⟨value, hv, -⟩ := hobject h
          cases hr.symm.trans hv
      | some value =>
          cases value with
          | object resources =>
              refine .inl ⟨rfl, fun fault h => ?_⟩
              obtain ⟨value, hv, hkind⟩ := hobject h
              obtain rfl := Option.some.inj (hr.symm.trans hv)
              exact hkind rfl
          | _ =>
              refine .inr ⟨_, .badResources hr ?_, rfl⟩
              intro hkind
              cases hkind
  | _ =>
      refine .inr ⟨_, .notAnObject ?_, rfl⟩
      intro hkind
      cases hkind

theorem Index.build_eq_error_iff {settings : Settings} {template : Document} {fault : Fault} :
    Index.build settings template = .error fault ↔ NoIndex template fault := by
  rcases Index.build_cases settings template with ⟨hok, hnone⟩ | ⟨cause, hcause, herror⟩
  · rw [hok]
    exact ⟨nofun, fun h => absurd h (hnone fault)⟩
  · rw [herror]
    constructor
    · intro h
      obtain rfl := Except.error.inj h
      exact hcause
    · intro h
      rw [hcause.unique h]

/-- An index holds the settings and the resources of the template that it is made of. -/
theorem Index.eq_of_build {settings : Settings} {template : Document} {index : Index}
    (h : Index.build settings template = .ok index) :
    index = ⟨template, resourcesOf template, settings⟩ := by
  rcases Index.build_cases settings template with ⟨hok, -⟩ | ⟨_, -, herror⟩
  · exact Except.ok.inj (h.symm.trans hok)
  · cases h.symm.trans herror

/-- There is an index over every object whose resources are an object too, if it has any.  An index
looks up the plan by the number of resources with its type, and by the payload if there is one. -/
theorem lookup_by_count (settings : Settings) (template : Document) :
    (∀ fault, Index.build settings template = .error fault ↔ NoIndex template fault) ∧
      ∀ index, Index.build settings template = .ok index → LooksUp settings template index := by
  refine ⟨fun _ => Index.build_eq_error_iff, ?_⟩
  intro index hindex
  obtain rfl := Index.eq_of_build hindex
  have hrule := fun template => Index.lookedUp_plan? ⟨template, resourcesOf template, settings⟩
  refine ⟨?_, ?_, ?_⟩
  · intro outcome
    constructor
    · rintro rfl
      exact hrule template
    · exact (hrule template).unique
  · intro wanted fault
    rw [Index.steps_eq_error_iff]
    constructor
    · intro h
      exact ⟨_, hrule template, h⟩
    · rintro ⟨outcome, hlookup, h⟩
      exact (hrule template).unique hlookup ▸ h
  · intro other index' hother hperm
    obtain rfl := Index.eq_of_build hother
    have hplan := (hrule template).sameButOrder (hrule other) (hperm.filter _)
    exact ⟨hplan, Index.sameButOrder_steps hplan⟩

/-- A plan resource with a list of no steps. -/
def listedResource : Document :=
  .object [("Type", .string "Attini::Deploy::DeploymentPlan"),
    ("Properties", .object [("DeploymentPlan", .list [])])]

/-- A plan resource without a payload. -/
def bareResource : Document := .object [("Type", .string "Attini::Deploy::DeploymentPlan")]

/-- A template with these resources. -/
def templateOf (resources : Fields Document) : Document :=
  .object [("Resources", .object resources)]

/-- Two plans are several, though one of them has no payload, and their names stand as authored. -/
theorem lookup_of_two_plans :
    ∃ index swapped,
      Index.build {} (templateOf [("First", listedResource), ("Second", bareResource)]) =
        .ok index ∧
      Index.build {} (templateOf [("Second", bareResource), ("First", listedResource)]) =
        .ok swapped ∧
      index.plan? = .error (.ambiguousPlan ["First", "Second"]) ∧
      index.steps ["Job"] = .error (.ambiguousPlan ["First", "Second"]) ∧
      SameButOrder (index.steps ["Job"]) (swapped.steps ["Job"]) := by
  let resources : Fields Document := [("First", listedResource), ("Second", bareResource)]
  let turned : Fields Document := [("Second", bareResource), ("First", listedResource)]
  obtain ⟨-, hindex⟩ := lookup_by_count {} (templateOf resources)
  have hlooksUp := hindex ⟨templateOf resources, resources, {}⟩ rfl
  have hseveral : LookedUp {} (planResources {} (templateOf resources))
      (.error (.ambiguousPlan ["First", "Second"])) :=
    @LookedUp.several {} resources (by decide)
  refine ⟨_, ⟨templateOf turned, turned, {}⟩, rfl, rfl, ?_, ?_, ?_⟩
  · exact (hlooksUp.plan_iff _).mpr hseveral
  · exact (hlooksUp.fails_iff _ _).mpr ⟨_, hseveral, .lookup⟩
  · have hperm : resources.Perm turned := List.Perm.swap _ _ _
    exact (hlooksUp.permuted (templateOf turned) _ rfl hperm).2 ["Job"]

end StepGraph.Template
