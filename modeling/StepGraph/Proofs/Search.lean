/-
The search for states goes through all states of a graph.

The search is written as one traversal that adds to groups on its way.  It
adds exactly the states that are reported, among all states of the graph, in
their order: what it skips together with a state is nothing, since such a
state holds no graphs.
-/
import StepGraph.Proofs.Grouping
import StepGraph.Proofs.Nesting
import StepGraph.Template.Steps

namespace StepGraph.Template

open StepGraph.Plan (statesOf subGraphs flattened allStates allStates_eq sizeOf_lt_of_mem_statesOf
  sizeOf_lt_of_mem_subGraphs)

/-- A state as it is reported: under its type, unless that is no text or that of a fan-out. -/
def reportedAs (named : String × Document) : Option (String × FoundStep) :=
  match named.2.textAt? "Type" with
  | some type => if type = "Parallel" then none else some (type, ⟨named.1, named.2⟩)
  | none => none

theorem reportedAs_eq_some {named : String × Document} {found : String × FoundStep}
    (h : reportedAs named = some found) :
    named.2.textAt? "Type" = some found.1 ∧ found.1 ≠ "Parallel" ∧
      found.2 = ⟨named.1, named.2⟩ := by
  unfold reportedAs at h
  split at h
  · rename_i type ht
    split at h
    · simp at h
    · rename_i hp
      obtain rfl := Option.some.inj h
      exact ⟨ht, hp, rfl⟩
  · simp at h

/-- The states among those given that are reported under a wanted type. -/
def wantedAmong (wanted : List String) (states : Fields Document) : List (String × FoundStep) :=
  (states.filterMap reportedAs).filter fun found => wanted.contains found.1

theorem wantedAmong_append (wanted : List String) (states more : Fields Document) :
    wantedAmong wanted (states ++ more) = wantedAmong wanted states ++ wantedAmong wanted more := by
  rw [wantedAmong, List.filterMap_append, List.filter_append]
  rfl

theorem wantedAmong_flatMap {α : Type} (wanted : List String) (xs : List α)
    (f : α → Fields Document) :
    wantedAmong wanted (xs.flatMap f) = xs.flatMap fun x => wantedAmong wanted (f x) := by
  induction xs with
  | nil => rfl
  | cons x rest ih => rw [List.flatMap_cons, List.flatMap_cons, wantedAmong_append, ih]

/-! ## One level of the search -/

theorem collect_eq (wanted : List String) (groups : StepGroups) (states : Fields Document) :
    collect wanted groups states =
      states.foldl (fun g named => collectState wanted g named.1 named.2) groups := by
  induction states generalizing groups with
  | nil => rfl
  | cons named rest ih => exact ih _

theorem collectStates_eq (wanted : List String) (groups : StepGroups)
    (fields : Fields Document) :
    collectStates wanted groups fields = collect wanted groups (statesOf (.object fields)) := by
  rw [statesOf, Document.field?]
  induction fields with
  | nil => rfl
  | cons field rest ih =>
      obtain ⟨key, value⟩ := field
      rw [collectStates, Fields.get?_cons]
      by_cases hk : key = "States"
      · rw [if_pos hk, if_pos hk]
        cases value <;> rfl
      · rw [if_neg hk, if_neg hk]
        exact ih

theorem collectGraph_eq (wanted : List String) (groups : StepGroups) (graph : Document) :
    collectGraph wanted groups graph = collect wanted groups (statesOf graph) := by
  cases graph with
  | object fields => exact collectStates_eq wanted groups fields
  | _ => rfl

theorem collectSlot_eq (wanted : List String) (slot : String) (groups : StepGroups)
    (fields : Fields Document) :
    collectSlot wanted slot groups fields =
      (Fields.get? fields slot).toList.foldl (collectGraph wanted) groups := by
  induction fields with
  | nil => rfl
  | cons field rest ih =>
      obtain ⟨key, value⟩ := field
      rw [collectSlot, Fields.get?_cons]
      by_cases hk : key = slot
      · rw [if_pos hk, if_pos hk]
        rfl
      · rw [if_neg hk, if_neg hk]
        exact ih

theorem collectEach_eq (wanted : List String) (groups : StepGroups) (branches : List Document) :
    collectEach wanted groups branches = branches.foldl (collectGraph wanted) groups := by
  induction branches generalizing groups with
  | nil => rfl
  | cons branch rest ih => exact ih _

theorem collectBranches_eq (wanted : List String) (groups : StepGroups)
    (fields : Fields Document) :
    collectBranches wanted groups fields =
      (((Fields.get? fields "Branches").bind Document.items?).getD []).foldl
        (collectGraph wanted) groups := by
  induction fields with
  | nil => rfl
  | cons field rest ih =>
      obtain ⟨key, value⟩ := field
      rw [collectBranches, Fields.get?_cons]
      by_cases hk : key = "Branches"
      · rw [if_pos hk, if_pos hk]
        cases value with
        | list branches => exact collectEach_eq wanted groups branches
        | _ => rfl
      · rw [if_neg hk, if_neg hk]
        exact ih

/-- A state is added if it is reported and wanted, and then its graphs are searched. -/
theorem collectState_eq (wanted : List String) (groups : StepGroups) (named : String × Document) :
    collectState wanted groups named.1 named.2 =
      (subGraphs named.2).foldl (collectGraph wanted)
        (groups.pushAll (wantedAmong wanted [named])) := by
  obtain ⟨name, state⟩ := named
  cases state with
  | object fields =>
      rw [collectState, subGraphs]
      cases ht : (Document.object fields).textAt? "Type" with
      | none => simp [wantedAmong, reportedAs, ht, StepGroups.pushAll]
      | some type =>
          by_cases hp : type = "Parallel"
          · simp only [hp, if_true, collectBranches_eq, Document.field?]
            simp [wantedAmong, reportedAs, ht, hp, StepGroups.pushAll]
          · have hpush : groups.pushAll (wantedAmong wanted [(name, .object fields)]) =
                if wanted.contains type then groups.push type ⟨name, .object fields⟩
                else groups := by
              by_cases hw : type ∈ wanted <;>
                simp [wantedAmong, reportedAs, ht, hp, hw, StepGroups.pushAll]
            rw [hpush]
            simp only [if_neg hp, collectSlot_eq, Document.field?]
            by_cases hc : type = "Choice"
            · rw [if_pos hc, if_pos hc, List.foldl_append]
            · rw [if_neg hc, if_neg hc]
              rfl
  | _ => rfl

/-! ## The whole search -/

theorem foldl_eq_pushAll {α : Type} {xs : List α} {f : StepGroups → α → StepGroups}
    {h : α → List (String × FoundStep)} (groups : StepGroups)
    (hf : ∀ x ∈ xs, ∀ g, f g x = g.pushAll (h x)) :
    xs.foldl f groups = groups.pushAll (xs.flatMap h) := by
  induction xs generalizing groups with
  | nil => rfl
  | cons x rest ih =>
      rw [List.foldl_cons, hf x List.mem_cons_self groups]
      rw [ih _ fun y hy => hf y (List.mem_cons_of_mem _ hy)]
      simp only [StepGroups.pushAll, List.flatMap_cons, List.foldl_append]

/-- The search adds the wanted states among all states of a graph, in their order. -/
theorem collectGraph_eq_pushAll (wanted : List String) (graph : Document) (groups : StepGroups) :
    collectGraph wanted groups graph = groups.pushAll (wantedAmong wanted (allStates graph)) := by
  rw [collectGraph_eq, collect_eq, allStates_eq, flattened, wantedAmong_flatMap]
  refine foldl_eq_pushAll groups fun named hn g => ?_
  have hsub : (subGraphs named.2).foldl (collectGraph wanted)
      (g.pushAll (wantedAmong wanted [named])) =
      (g.pushAll (wantedAmong wanted [named])).pushAll
        ((subGraphs named.2).flatMap fun sub => wantedAmong wanted (allStates sub)) := by
    refine foldl_eq_pushAll _ fun sub hs g => ?_
    have : sizeOf sub < sizeOf graph :=
      Nat.lt_trans (sizeOf_lt_of_mem_subGraphs hs) (sizeOf_lt_of_mem_statesOf hn)
    exact collectGraph_eq_pushAll wanted sub g
  have hsplit : wantedAmong wanted (named :: (subGraphs named.2).flatMap allStates) =
      wantedAmong wanted [named] ++ wantedAmong wanted ((subGraphs named.2).flatMap allStates) :=
    wantedAmong_append wanted [named] _
  rw [collectState_eq, hsub, ← wantedAmong_flatMap, hsplit]
  simp only [StepGroups.pushAll, List.foldl_append]
termination_by sizeOf graph

end StepGraph.Template
