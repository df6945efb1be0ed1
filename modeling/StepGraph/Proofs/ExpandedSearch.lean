/-
Searching a template after expansion agrees with walking through its plan.

The author's plan is a list of steps; the search knows graphs only.  Once the
template is expanded, the search finds for every type the steps of this type
that a walk through the list visits, in the order of the walk, and the merge
states that were inserted.
-/
import StepGraph.Proofs.Expansion
import StepGraph.Proofs.PlanWalk

namespace StepGraph.Template

open StepGraph.Plan (Compiler allStates stateNames walk follower reports reportable)

/-- The names that a walk visits under a type. -/
def namesOfType (visits : List (String × String)) (type : String) : List String :=
  (visits.filter fun visit => visit.2 = type).map Prod.fst

/-- Groups hold the visits under wanted types, those to fan-outs apart. -/
structure HoldsVisits (wanted : List String) (visits : List (String × String))
    (groups : StepGroups) : Prop where
  found : ∀ type ∈ wanted, type ≠ "Parallel" →
    (groups.get type).map FoundStep.name = namesOfType visits type
  noFanOut : groups.get "Parallel" = []
  unwanted : ∀ type, type ∉ wanted → groups.get type = []
  distinct : (groups.all.map FoundStep.name).Nodup

/-! ## What is reported -/

theorem reported_names_sublist (states : Fields Document) :
    List.Sublist ((states.filterMap reportedAs).map fun found => found.2.name)
      (Fields.names states) := by
  induction states with
  | nil => exact List.Sublist.refl _
  | cons named rest ih =>
      cases hr : reportedAs named with
      | none =>
          rw [List.filterMap_cons_none hr]
          exact ih.cons _
      | some found =>
          obtain ⟨-, -, hf⟩ := reportedAs_eq_some hr
          rw [List.filterMap_cons_some hr, List.map_cons, hf]
          exact ih.cons_cons _

theorem get_collectGraph (wanted : List String) (graph : Document) (type : String) :
    (collectGraph wanted .empty graph).get type =
      ((wantedAmong wanted (allStates graph)).filter fun found => found.1 = type).map
        Prod.snd := by
  rw [collectGraph_eq_pushAll, StepGroups.ascending_empty.get_pushAll]
  exact List.nil_append _

/-- A test that implies another makes the other superfluous. -/
theorem filter_filter_of_imp {α : Type} {p q : α → Bool} (h : ∀ x, p x = true → q x = true)
    (xs : List α) : (xs.filter q).filter p = xs.filter p := by
  rw [List.filter_filter]
  refine List.filter_congr fun x _ => ?_
  cases hp : p x with
  | false => rfl
  | true => rw [h x hp]; rfl

/-- Among the states of a wanted type those that are wanted are all that are reported. -/
theorem names_wantedAmong {wanted : List String} {type : String} (hw : type ∈ wanted)
    (states : Fields Document) :
    ((wantedAmong wanted states).filter fun found => found.1 = type).map
        (fun found => found.2.name) =
      namesOfType (reports states) type := by
  have hwanted : ∀ found : String × FoundStep,
      decide (found.1 = type) = true → wanted.contains found.1 = true := by
    intro found ht
    rw [of_decide_eq_true ht]
    exact List.contains_iff_mem.mpr hw
  rw [wantedAmong, filter_filter_of_imp hwanted, namesOfType, reports, List.filter_map,
    List.map_map]
  rfl

theorem namesOfType_reportable {type : String} (h : type ≠ "Parallel")
    (visits : List (String × String)) :
    namesOfType (reportable visits) type = namesOfType visits type := by
  have hreportable : ∀ visit : String × String,
      decide (visit.2 = type) = true → decide (visit.2 ≠ "Parallel") = true := by
    intro visit ht
    exact decide_eq_true (of_decide_eq_true ht ▸ h)
  rw [namesOfType, reportable, filter_filter_of_imp hreportable, namesOfType]

/-- The search of a graph holds what a walk visits, if the walk agrees with the reports. -/
theorem holdsVisits_collectGraph {wanted : List String} {graph : Document}
    {visits : List (String × String)} (hr : reports (allStates graph) = reportable visits)
    (hd : (stateNames graph).Nodup) :
    HoldsVisits wanted visits (collectGraph wanted .empty graph) := by
  refine ⟨?_, ?_, ?_, ?_⟩
  · intro type hw hp
    rw [get_collectGraph, List.map_map]
    exact (names_wantedAmong hw _).trans (hr ▸ namesOfType_reportable hp visits)
  · rw [get_collectGraph, List.map_eq_nil_iff, List.filter_eq_nil_iff]
    intro found hf
    obtain ⟨hf, -⟩ := List.mem_filter.mp hf
    obtain ⟨named, -, hn⟩ := List.mem_filterMap.mp hf
    simpa using (reportedAs_eq_some hn).2.1
  · intro type hw
    rw [get_collectGraph, List.map_eq_nil_iff, List.filter_eq_nil_iff]
    intro found hf
    obtain ⟨-, hf⟩ := List.mem_filter.mp hf
    simp only [List.contains_iff_mem, decide_eq_true_eq] at hf ⊢
    rintro rfl
    exact hw hf
  · rw [collectGraph_eq_pushAll]
    have hall := (StepGroups.all_pushAll .empty (wantedAmong wanted (allStates graph))).map
      FoundStep.name
    rw [hall.nodup_iff]
    have hwanted := (List.filter_sublist (l := (allStates graph).filterMap reportedAs)
      (p := fun found => wanted.contains found.1)).map fun found => found.2.name
    refine hd.sublist (List.Sublist.trans ?_ (hwanted.trans (reported_names_sublist _)))
    rw [StepGroups.all, StepGroups.empty, List.flatMap_nil, List.nil_append, List.map_map]
    exact List.Sublist.refl _

/-! ## Expansion and search -/

theorem Index.steps_eq {index : Index} {plan : DeploymentPlan} {states : Fields Document}
    (hp : index.plan? = .ok (some plan)) (hf : plan.format = .stateLanguage)
    (hs : (plan.payload.field? "States").bind Document.fields? = some states)
    (wanted : List String) : index.steps wanted = .ok (collect wanted .empty states) := by
  simp only [Index.steps, Index.plan, hp, bind, Except.bind, hf, hs]
  rfl

/-- If the plan of a template compiles, the template can be expanded and then searched, and
the search finds what a walk through the plan visits. -/
theorem search_expanded {settings : Settings} {c : Compiler} {template definition : Document}
    {index : Index} {plan : DeploymentPlan} {steps : List Document} (hd : template.Distinct)
    (hb : Index.build settings template = .ok index) (hp : index.plan? = .ok (some plan))
    (hs : plan.payload = .list steps) (hc : c.definition plan.payload = .ok definition)
    (wanted : List String) :
    ∃ expanded index' groups, expand settings c template = .ok expanded ∧
      Index.build settings expanded = .ok index' ∧ index'.steps wanted = .ok groups ∧
      HoldsVisits wanted (walk c (follower definition) steps) groups := by
  have hexpand := expand_simple hb hp hs hc
  obtain ⟨index', resource, hb', hp'⟩ :=
    Index.plan?_replaceAt hd hb hp (formatOf?_definition hc)
  rw [hs] at hc
  have hreports := Plan.reports_definition hc
  have hnodup := Plan.stateNames_nodup hc
  obtain ⟨_, states, _, -, -, -, rfl⟩ := Plan.compiles_of_definition hc
  refine ⟨_, index', _, hexpand, hb', Index.steps_eq hp' rfl rfl wanted, ?_⟩
  have hsearch : HoldsVisits wanted _ _ := holdsVisits_collectGraph hreports hnodup
  rw [collectGraph_eq] at hsearch
  exact hsearch

/-- A plan resource with `forkedPlan` as its payload. -/
def forkedResource : Document :=
  .object [("Type", .string "Attini::Deploy::DeploymentPlan"),
    ("Properties", .object [("DeploymentPlan", .list Plan.forkedPlan)])]

/-- A template with this resource. -/
def forkedTemplate : Document :=
  .object [("Resources", .object [("Rollout", forkedResource)])]

theorem search_forkedTemplate :
    ∃ expanded index groups, expand {} {} forkedTemplate = .ok expanded ∧
      Index.build {} expanded = .ok index ∧ index.steps ["Choice", "Job"] = .ok groups ∧
      HoldsVisits ["Choice", "Job"] (walk {} (follower Plan.forkedGraph) Plan.forkedPlan)
        groups := by
  have hd : forkedTemplate.Distinct := by
    simp [forkedTemplate, forkedResource, Plan.forkedPlan, Fields.names]
  have hp : (⟨forkedTemplate, [("Rollout", forkedResource)], {}⟩ : Index).plan? =
      .ok (some ⟨"Rollout", forkedResource, .list Plan.forkedPlan, .simple⟩) := rfl
  exact search_expanded hd rfl hp rfl rfl ["Choice", "Job"]

end StepGraph.Template
