/-
Which states a search reports, and which of them hold other states.

A fan-out and a choice hold graphs of their own.  Both are searched through,
whatever types are wanted.  A fan-out is not reported itself, but a choice is,
as any other state: a search that asks for the type of choices finds them.
So no container is reported unless choices are asked for and there are some.
-/
import StepGraph.Proofs.PlanLookup
import StepGraph.Proofs.Traversal

namespace StepGraph.Template

open StepGraph.Plan (GraphIn statesOf allStates mem_allStates_iff)

/-- A state that holds graphs: a fan-out or a choice. -/
def IsContainer (state : Document) : Prop :=
  state.textAt? "Type" = some "Parallel" ∨ state.textAt? "Type" = some "Choice"

/-- A state of a graph, or of a graph in one of its containers at any depth. -/
def StateIn (graph : Document) (name : String) (state : Document) : Prop :=
  ∃ sub, GraphIn graph sub ∧ (name, state) ∈ statesOf sub

/-- A state of a wanted type that is no fan-out. -/
def IsWanted (wanted : List String) (state : Document) : Prop :=
  ∃ type ∈ wanted, type ≠ "Parallel" ∧ state.textAt? "Type" = some type

/-- Groups report the states of a graph that are of a wanted type and no fan-outs; so they report
no container exactly if there is no choice or none is wanted. -/
structure ReportsStates (wanted : List String) (graph : Document) (groups : StepGroups) :
    Prop where
  mem_iff : ∀ found, found ∈ groups.all ↔
    StateIn graph found.name found.definition ∧ IsWanted wanted found.definition
  noFanOut : ∀ found ∈ groups.all, found.definition.textAt? "Type" ≠ some "Parallel"
  noContainer_iff : (∀ found ∈ groups.all, ¬ IsContainer found.definition) ↔
    ("Choice" ∈ wanted →
      ∀ name state, StateIn graph name state → state.textAt? "Type" ≠ some "Choice")

theorem reportedAs_eq_some_iff {named : String × Document} {found : String × FoundStep} :
    reportedAs named = some found ↔
      named.2.textAt? "Type" = some found.1 ∧ found.1 ≠ "Parallel" ∧
        found.2 = ⟨named.1, named.2⟩ := by
  constructor
  · exact reportedAs_eq_some
  · rintro ⟨htype, hne, hfound⟩
    simp only [reportedAs, htype, if_neg hne, ← hfound]

/-- What is wanted among states are the states of a wanted type that are no fan-outs. -/
theorem mem_wantedAmong_iff {wanted : List String} {states : Fields Document}
    {found : FoundStep} :
    found ∈ (wantedAmong wanted states).map Prod.snd ↔
      (found.name, found.definition) ∈ states ∧ IsWanted wanted found.definition := by
  constructor
  · intro h
    obtain ⟨⟨type, found⟩, hmem, rfl⟩ := List.mem_map.mp h
    obtain ⟨hreported, hwanted⟩ := List.mem_filter.mp hmem
    obtain ⟨named, hnamed, hnamedAs⟩ := List.mem_filterMap.mp hreported
    obtain ⟨htype, hne, rfl⟩ := reportedAs_eq_some_iff.mp hnamedAs
    exact ⟨hnamed, type, List.contains_iff_mem.mp hwanted, hne, htype⟩
  · rintro ⟨hstate, type, hwanted, hne, htype⟩
    have hreported : reportedAs (found.name, found.definition) = some (type, found) :=
      reportedAs_eq_some_iff.mpr ⟨htype, hne, rfl⟩
    refine List.mem_map.mpr ⟨(type, found), ?_, rfl⟩
    refine List.mem_filter.mpr ⟨?_, List.contains_iff_mem.mpr hwanted⟩
    exact List.mem_filterMap.mpr ⟨_, hstate, hreported⟩

theorem mem_all_collectGraph {wanted : List String} {graph : Document} {found : FoundStep} :
    found ∈ (collectGraph wanted .empty graph).all ↔
      StateIn graph found.name found.definition ∧ IsWanted wanted found.definition := by
  rw [collectGraph_eq_pushAll, (StepGroups.all_pushAll _ _).mem_iff]
  show found ∈ [] ++ _ ↔ _
  rw [List.nil_append, mem_wantedAmong_iff, mem_allStates_iff]
  rfl

theorem reportsStates_collectGraph (wanted : List String) (graph : Document) :
    ReportsStates wanted graph (collectGraph wanted .empty graph) := by
  have hnoFanOut : ∀ found ∈ (collectGraph wanted .empty graph).all,
      found.definition.textAt? "Type" ≠ some "Parallel" := by
    intro found hfound hparallel
    obtain ⟨-, type, -, hne, htype⟩ := mem_all_collectGraph.mp hfound
    exact hne (Option.some.inj (htype.symm.trans hparallel))
  refine ⟨fun found => mem_all_collectGraph, hnoFanOut, ?_, ?_⟩
  · intro h hwanted name state hstate hchoice
    have hfound : ⟨name, state⟩ ∈ (collectGraph wanted .empty graph).all :=
      mem_all_collectGraph.mpr ⟨hstate, "Choice", hwanted, by decide, hchoice⟩
    exact h _ hfound (.inr hchoice)
  · intro h found hfound hcontainer
    obtain ⟨hstate, type, hwanted, -, htype⟩ := mem_all_collectGraph.mp hfound
    rcases hcontainer with hparallel | hchoice
    · exact hnoFanOut found hfound hparallel
    · obtain rfl := Option.some.inj (htype.symm.trans hchoice)
      exact h hwanted _ _ hstate hchoice

/-- The search of a plan that is a graph reports the states of the wanted types, those in
containers as well, but no fan-out; it fails only if the plan has no object of states. -/
theorem steps_reportsStates {index : Index} {plan : DeploymentPlan}
    (hp : index.plan? = .ok (some plan)) (hf : plan.format = .stateLanguage)
    (wanted : List String) :
    (∃ states groups, plan.payload.field? "States" = some (.object states) ∧
      index.steps wanted = .ok groups ∧ ReportsStates wanted plan.payload groups) ∨
    ((∀ states, plan.payload.field? "States" ≠ some (.object states)) ∧
      index.steps wanted = .error (.noStates plan.name)) := by
  by_cases hs : ∃ states, plan.payload.field? "States" = some (.object states)
  · obtain ⟨states, hs⟩ := hs
    refine .inl ⟨states, _, hs, Index.steps_of_states hp hs wanted, ?_⟩
    exact reportsStates_collectGraph wanted plan.payload
  · have hnone : ∀ states, plan.payload.field? "States" ≠ some (.object states) :=
      fun states h => hs ⟨states, h⟩
    have hfails : SearchFails index.plan? (.noStates plan.name) := hp ▸ .noStates hf hnone
    exact .inr ⟨hnone, Index.steps_eq_error_iff.mpr hfails⟩

/-- In the hand-written graph the choice is reported beside the states in it and in the fan-out, if
it is asked for, and the fan-out is not. -/
theorem handWrittenGraph_reportsStates :
    ∃ index plan groups, Index.build {} handWrittenTemplate = .ok index ∧
      index.plan? = .ok (some plan) ∧
      index.steps ["Choice", "Parallel", "Job"] = .ok groups ∧
      ReportsStates ["Choice", "Parallel", "Job"] handWrittenGraph groups ∧
      ∃ found ∈ groups.all, IsContainer found.definition := by
  have hp : (⟨handWrittenTemplate, [("Rollout", handWrittenResource)], {}⟩ : Index).plan? =
      .ok (some ⟨"Rollout", handWrittenResource, handWrittenGraph, .stateLanguage⟩) := rfl
  rcases steps_reportsStates hp rfl ["Choice", "Parallel", "Job"] with
    ⟨states, groups, -, hsteps, hreports⟩ | ⟨hnone, -⟩
  · refine ⟨_, _, groups, rfl, hp, hsteps, hreports, ?_⟩
    let check : FoundStep := ⟨"Check", .object
      [("Type", .string "Choice"), ("IsFalse", .null), ("IsTrue", jobGraph "Yes")]⟩
    have hstate : StateIn handWrittenGraph check.name check.definition :=
      ⟨handWrittenGraph, .root, .tail _ (.tail _ (.head _))⟩
    have hfound : check ∈ groups.all :=
      (hreports.mem_iff check).mpr ⟨hstate, "Choice", .head _, by decide, rfl⟩
    exact ⟨check, hfound, .inr rfl⟩
  · exact absurd rfl (hnone _)

end StepGraph.Template
