/-
The search of any compiled plan, against a traversal of it.

A plan that is already a graph may have been written by hand, so nothing is
known of it but that it has an object of states.  What the search groups is
told by a traversal that only lists: it knows no wanted types and no groups,
and goes from a state to the graphs in it.  The group of a type is then what
the traversal visits under this type.
-/
import StepGraph.Proofs.ExpandedSearch

namespace StepGraph.Template

open StepGraph.Plan (statesOf subGraphs allStates allStates_eq flattened sizeOf_lt_of_mem_statesOf
  sizeOf_lt_of_mem_subGraphs)

/-! ## The traversal -/

/-- The visits that a state gives rise to, with those in its graphs given.  A state whose `Type`
is no text is passed over with all that is in it, and a fan-out is not visited itself. -/
def visitsAt (named : String × Document) (below : List (String × FoundStep)) :
    List (String × FoundStep) :=
  match named.2.textAt? "Type" with
  | none => []
  | some type => if type = "Parallel" then below else (type, ⟨named.1, named.2⟩) :: below

/-- The states that a traversal of a graph visits, each under its type: the states in order, and
behind each what is visited in the elements of a fan-out's `Branches` and in a choice's `IsTrue`
and `IsFalse`. -/
def visited (graph : Document) : List (String × FoundStep) :=
  (statesOf graph).attach.flatMap fun ⟨named, hn⟩ =>
    visitsAt named <| (subGraphs named.2).attach.flatMap fun ⟨sub, hs⟩ =>
      have : sizeOf sub < sizeOf graph :=
        Nat.lt_trans (sizeOf_lt_of_mem_subGraphs hs) (sizeOf_lt_of_mem_statesOf hn)
      visited sub
termination_by sizeOf graph

theorem visited_eq (graph : Document) :
    visited graph = (statesOf graph).flatMap fun named =>
      visitsAt named ((subGraphs named.2).flatMap visited) := by
  rw [visited]
  simp only [List.flatMap_subtype, List.unattach_attach]

/-- A state that is passed over holds no graphs, so no state in it is missed. -/
theorem visitsAt_eq_filterMap {named : String × Document}
    (h : ∀ sub ∈ subGraphs named.2, visited sub = (allStates sub).filterMap reportedAs) :
    visitsAt named ((subGraphs named.2).flatMap visited) =
      (named :: (subGraphs named.2).flatMap allStates).filterMap reportedAs := by
  have hbelow : (subGraphs named.2).flatMap visited =
      ((subGraphs named.2).flatMap allStates).filterMap reportedAs := by
    rw [List.filterMap_flatMap]
    exact List.flatMap_congr h
  rw [visitsAt, hbelow]
  cases ht : named.2.textAt? "Type" with
  | none => simp [subGraphs, reportedAs, ht]
  | some type =>
      by_cases hp : type = "Parallel"
      · simp [reportedAs, ht, hp]
      · simp [reportedAs, ht, hp]

/-- The traversal visits what is reported among all states. -/
theorem visited_eq_filterMap (graph : Document) :
    visited graph = (allStates graph).filterMap reportedAs := by
  rw [visited_eq, allStates_eq, flattened, List.filterMap_flatMap]
  refine List.flatMap_congr fun named hn => ?_
  refine visitsAt_eq_filterMap fun sub hs => ?_
  have : sizeOf sub < sizeOf graph :=
    Nat.lt_trans (sizeOf_lt_of_mem_subGraphs hs) (sizeOf_lt_of_mem_statesOf hn)
  exact visited_eq_filterMap sub
termination_by sizeOf graph

/-! ## The groups -/

/-- The states that are visited under a type, in order. -/
def visitedUnder (visits : List (String × FoundStep)) (type : String) : List FoundStep :=
  (visits.filter fun visit => visit.1 = type).map Prod.snd

/-- Groups hold the visits under wanted types, those of each type in a group of its own. -/
structure GroupsVisits (wanted : List String) (visits : List (String × FoundStep))
    (groups : StepGroups) : Prop where
  found : ∀ type ∈ wanted, groups.get type = visitedUnder visits type
  grouped : ∀ type, type ∈ groups.types ↔ type ∈ wanted ∧ visitedUnder visits type ≠ []
  ascending : groups.Ascending
  size : groups.size = (visits.filter fun visit => wanted.contains visit.1).length

theorem visitedUnder_ne_nil_iff {visits : List (String × FoundStep)} {type : String} :
    visitedUnder visits type ≠ [] ↔ ∃ visit ∈ visits, visit.1 = type := by
  rw [visitedUnder, Ne, List.map_eq_nil_iff, List.filter_eq_nil_iff]
  simp

/-- Adding the visits under wanted types to no groups makes their groups. -/
theorem groupsVisits_pushAll (wanted : List String) (visits : List (String × FoundStep)) :
    GroupsVisits wanted visits
      (StepGroups.empty.pushAll (visits.filter fun visit => wanted.contains visit.1)) := by
  refine ⟨?_, ?_, ?_, ?_⟩
  · intro type hw
    have hwanted : ∀ visit : String × FoundStep,
        decide (visit.1 = type) = true → wanted.contains visit.1 = true := by
      intro visit ht
      rw [of_decide_eq_true ht]
      exact List.contains_iff_mem.mpr hw
    rw [StepGroups.ascending_empty.get_pushAll, filter_filter_of_imp hwanted]
    exact List.nil_append _
  · intro type
    rw [StepGroups.mem_types_pushAll, visitedUnder_ne_nil_iff]
    constructor
    · rintro (h | ⟨visit, hv, rfl⟩)
      · exact absurd h List.not_mem_nil
      · obtain ⟨hv, hw⟩ := List.mem_filter.mp hv
        exact ⟨List.contains_iff_mem.mp hw, visit, hv, rfl⟩
    · rintro ⟨hw, visit, hv, rfl⟩
      exact .inr ⟨visit, List.mem_filter.mpr ⟨hv, List.contains_iff_mem.mpr hw⟩, rfl⟩
  · exact StepGroups.ascending_empty.pushAll _
  · rw [StepGroups.size_pushAll]
    exact Nat.zero_add _

theorem groupsVisits_collectGraph (wanted : List String) (graph : Document) :
    GroupsVisits wanted (visited graph) (collectGraph wanted .empty graph) := by
  rw [collectGraph_eq_pushAll, wantedAmong, ← visited_eq_filterMap]
  exact groupsVisits_pushAll wanted (visited graph)

/-- A plan with an object of states is an object itself, so the search goes through it. -/
theorem Index.steps_of_states {index : Index} {plan : DeploymentPlan} {states : Fields Document}
    (hp : index.plan? = .ok (some plan))
    (hs : plan.payload.field? "States" = some (.object states)) (wanted : List String) :
    index.steps wanted = .ok (collectGraph wanted .empty plan.payload) := by
  obtain ⟨-, -, hformat⟩ := Index.plan?_eq_some_iff.mp hp
  have hcompiled : plan.format = .stateLanguage := by
    cases hpayload : plan.payload with
    | object fields =>
        rw [hpayload] at hformat
        exact (Option.some.inj hformat).symm
    | _ =>
        rw [hpayload] at hs
        cases hs
  have hstates : (plan.payload.field? "States").bind Document.fields? = some states := by
    rw [hs]
    rfl
  rw [Index.steps_eq hp hcompiled hstates wanted, collectGraph_eq, statesOf, hstates]
  rfl

/-- The search of a plan with an object of states groups what a traversal of the plan visits; so
the group of a type is the same whatever other types are wanted. -/
theorem steps_groupsVisits {index : Index} {plan : DeploymentPlan} {states : Fields Document}
    (hp : index.plan? = .ok (some plan))
    (hs : plan.payload.field? "States" = some (.object states)) :
    (∀ wanted, ∃ groups, index.steps wanted = .ok groups ∧
      GroupsVisits wanted (visited plan.payload) groups) ∧
    ∀ wanted more groups moreGroups type, index.steps wanted = .ok groups →
      index.steps more = .ok moreGroups → type ∈ wanted → type ∈ more →
      groups.get type = moreGroups.get type := by
  have hsearch := Index.steps_of_states hp hs
  constructor
  · intro wanted
    exact ⟨_, hsearch wanted, groupsVisits_collectGraph wanted plan.payload⟩
  · intro wanted more groups moreGroups type hg hm hw hwm
    obtain rfl := Except.ok.inj ((hsearch wanted).symm.trans hg)
    obtain rfl := Except.ok.inj ((hsearch more).symm.trans hm)
    rw [(groupsVisits_collectGraph wanted plan.payload).found type hw,
      (groupsVisits_collectGraph more plan.payload).found type hwm]

/-- A graph of one state. -/
def jobGraph (name : String) : Document :=
  .object [("States", .object [(name, .object [("Type", .string "Job")])])]

/-- A graph that no compiler makes: its first state has no type, the fan-out has a branch that is
no graph and a slot of a choice, and what stands in the choice for the false case is no graph. -/
def handWrittenGraph : Document :=
  .object [("States", .object
    [("Untyped", .object [("IsTrue", jobGraph "Lost")]),
     ("Fan", .object
       [("Type", .string "Parallel"), ("Branches", .list [.string "Later", jobGraph "Inner"]),
        ("IsTrue", jobGraph "Unread")]),
     ("Check", .object
       [("Type", .string "Choice"), ("IsFalse", .null), ("IsTrue", jobGraph "Yes")])])]

example : (visited handWrittenGraph).map (fun visit => (visit.2.name, visit.1)) =
    [("Inner", "Job"), ("Check", "Choice"), ("Yes", "Job")] := by cbv

/-- A plan resource with this graph as its payload. -/
def handWrittenResource : Document :=
  .object [("Type", .string "Attini::Deploy::DeploymentPlan"),
    ("Properties", .object [("DeploymentPlan", handWrittenGraph)])]

/-- A template with this resource. -/
def handWrittenTemplate : Document :=
  .object [("Resources", .object [("Rollout", handWrittenResource)])]

theorem handWrittenGraph_groupsVisits :
    ∃ index plan, Index.build {} handWrittenTemplate = .ok index ∧
      index.plan? = .ok (some plan) ∧ plan.payload = handWrittenGraph ∧
      (∀ wanted, ∃ groups, index.steps wanted = .ok groups ∧
        GroupsVisits wanted (visited handWrittenGraph) groups) ∧
      ∀ groups moreGroups, index.steps ["Job"] = .ok groups →
        index.steps ["Choice", "Job", "Job"] = .ok moreGroups →
        groups.get "Job" = moreGroups.get "Job" := by
  have hp : (⟨handWrittenTemplate, [("Rollout", handWrittenResource)], {}⟩ : Index).plan? =
      .ok (some ⟨"Rollout", handWrittenResource, handWrittenGraph, .stateLanguage⟩) := rfl
  obtain ⟨hgroups, hsame⟩ := steps_groupsVisits hp rfl
  refine ⟨_, _, rfl, hp, rfl, hgroups, ?_⟩
  intro groups moreGroups hg hm
  exact hsame _ _ groups moreGroups "Job" hg hm (by simp) (by simp)

end StepGraph.Template
