/-
Walking through an authored plan.

The walk visits the steps of a plan in authored order, knowing nothing of
graphs: a step goes by its shape, and the lists in it come right behind it.
It visits the states of the compiled plan that a search reports, in the same
order and under the same types.  Only a merge state whose type is that of a
fan-out is visited without being reported.
-/
import StepGraph.Proofs.NameSupply
import StepGraph.Proofs.Search

namespace StepGraph.Plan

open StepGraph.Template (FoundStep reportedAs)

/-- The name that an entry carries. -/
def entryName (entry : Document) : String := (entry.textAt? "Name").getD ""

theorem entryName_eq {fields : Fields Document} {name : String}
    (h : fields.get? "Name" = some (.string name)) : entryName (.object fields) = name := by
  rw [entryName, Document.textAt?_object h, Option.getD_some]

/-- The visit to a step itself: to a plain step under its type, if that is a text, to a choice
under that of its shape, to a fan-out none. -/
def ownVisit : Document → List (String × String)
  | .object fields =>
      match Shape.of fields with
      | .plain => ((typeOf? fields).map fun type => (entryName (.object fields), type)).toList
      | .parallel => []
      | .choice => [(entryName (.object fields), "Choice")]
  | _ => []

/-- The visit to the merge state behind a step, if one is inserted there. -/
def mergeVisit (c : Compiler) (after : String → String) (entry : Document)
    (rest : List Document) : List (String × String) :=
  if c.wantsMerge entry rest then [(after (entryName entry), c.mergeType)] else []

/-- The walk through a list of steps, as the names and types visited.  `after` tells how the
merge state behind a fan-out is named. -/
def walk (c : Compiler) (after : String → String) : List Document → List (String × String)
  | [] => []
  | entry :: rest =>
      ownVisit entry ++
        ((entryLists entry).attach.flatMap fun ⟨sub, hs⟩ =>
          have := sizeOf_lt_of_mem_entryLists hs
          walk c after sub) ++
        mergeVisit c after entry rest ++ walk c after rest
termination_by steps => sizeOf steps
decreasing_by
  · simp only [List.cons.sizeOf_spec]
    omega
  · simp only [List.cons.sizeOf_spec]
    omega

theorem walk_cons (c : Compiler) (after : String → String) (entry : Document)
    (rest : List Document) :
    walk c after (entry :: rest) =
      ownVisit entry ++ (entryLists entry).flatMap (walk c after) ++
        mergeVisit c after entry rest ++ walk c after rest := by
  rw [walk]
  simp only [List.flatMap_subtype, List.unattach_attach]

-- the steps that are done if the choice is true come first, though they are written last
example : walk {} (fun fanOut => fanOut ++ "Merge2") forkedPlan =
    [("FanMerge", "Job"), ("Check", "Choice"), ("Yes", "Job"),
      ("FanMerge2", "AttiniMergeOutput")] := by cbv

/-- The names and types under which states are reported. -/
def reports (states : Fields Document) : List (String × String) :=
  (states.filterMap reportedAs).map fun found => (found.2.name, found.1)

/-- Visits that may be reported: all but those under the type of a fan-out. -/
def reportable (visits : List (String × String)) : List (String × String) :=
  visits.filter fun visit => visit.2 ≠ "Parallel"

/-- The name that stands in `Next` of a state of a definition. -/
def follower (definition : Document) (name : String) : String :=
  (((allStates definition).get? name).bind fun state => state.textAt? "Next").getD ""

theorem reports_append (states more : Fields Document) :
    reports (states ++ more) = reports states ++ reports more := by
  rw [reports, List.filterMap_append, List.map_append]
  rfl

theorem reports_cons (named : String × Document) (states : Fields Document) :
    reports (named :: states) = reports [named] ++ reports states :=
  reports_append [named] states

theorem reportable_append (visits more : List (String × String)) :
    reportable (visits ++ more) = reportable visits ++ reportable more :=
  List.filter_append ..

/-! ## One state -/

/-- A state of a type that is a text is reported under it unless it is that of a fan-out. -/
theorem reports_singleton (name : String) (state : Document) :
    reports [(name, state)] =
      reportable ((state.textAt? "Type").map fun type => (name, type)).toList := by
  cases ht : state.textAt? "Type" with
  | none => simp [reports, reportable, reportedAs, ht]
  | some type =>
      by_cases hp : type = "Parallel" <;> simp [reports, reportable, reportedAs, ht, hp]

/-- The state of a step is reported where the step is visited. -/
theorem StateOf.reports_eq {fields : Fields Document} {lists : List (List Document)}
    {graphs : List Document} {state : State} (h : StateOf fields lists graphs state)
    {name key : String} (value : Document) (hk : key = "Next" ∨ key = "End")
    (hname : fields.get? "Name" = some (.string name)) :
    reports [(name, .object (state.insert key value))] =
      reportable (ownVisit (.object fields)) := by
  have ht : (Document.object state).textAt? "Type" = typeOf? state := rfl
  rw [reports_singleton, textAt?_chained value hk, ht, h.typeOf?_eq, ownVisit, entryName_eq hname]
  cases Shape.of fields with
  | plain => rfl
  | parallel => rfl
  | choice => rfl

theorem Compiler.reports_mergeState (c : Compiler) {name key : String} (value : Document)
    (hk : key = "Next" ∨ key = "End") :
    reports [(name, .object (c.mergeState.insert key value))] =
      reportable [(name, c.mergeType)] := by
  rw [reports_singleton, textAt?_chained value hk]
  rfl

/-! ## All states of a list -/

/-- `after` names what the states lead to. -/
def Follows (after : String → String) (states : Fields Document) : Prop :=
  ∀ named ∈ states, ∀ next, named.2.textAt? "Next" = some next → after named.1 = next

theorem Follows.subset {after : String → String} {states more : Fields Document}
    (h : Follows after more) (hsub : states ⊆ more) : Follows after states :=
  fun named hn => h named (hsub hn)

theorem flattened_chain_subset (more states : List (String × State)) :
    flattened (chain states) ⊆ flattened (chain (more ++ states)) := by
  induction more with
  | nil => exact fun _ hm => hm
  | cons named rest ih =>
      obtain ⟨key, value, -, hc⟩ := chain_cons named (rest ++ states)
      rw [List.cons_append, hc, flattened_cons]
      exact fun _ hm => List.mem_append_right _ (ih hm)

section Merge

variable {c : Compiler} {after : String → String} {names behind : Names} {name : String}
  {fields : Fields Document} {rest : List Document} {merge states : List (String × State)}

/-- The fan-out leads to the merge state, so the visit is to a state of this name. -/
theorem mergeVisit_eq {state : State}
    (hins : c.inserted name (.object fields) rest names = (merge, behind))
    (hname : fields.get? "Name" = some (.string name))
    (hafter : Follows after (flattened (chain ((name, state) :: (merge ++ states))))) :
    mergeVisit c after (.object fields) rest =
      merge.map fun named => (named.1, c.mergeType) := by
  rcases Compiler.inserted_eq hins with ⟨hw, rfl, -⟩ | ⟨mergeName, hw, rfl, -, -⟩
  · rw [mergeVisit, hw]
    rfl
  · have hnext : after name = mergeName := by
      refine hafter (name, .object (state.insert "Next" (.string mergeName))) ?_ mergeName ?_
      · rw [List.singleton_append, chain, flattened_cons]
        exact List.mem_cons_self
      · exact Document.textAt?_object (Fields.get?_insert_self _ _ _)
    rw [mergeVisit, hw, if_pos rfl, entryName_eq hname, hnext]
    rfl

theorem reports_merge
    (hins : c.inserted name (.object fields) rest names = (merge, behind)) :
    reports (flattened (chain (merge ++ states))) =
      reportable (merge.map fun named => (named.1, c.mergeType)) ++
        reports (flattened (chain states)) := by
  rcases Compiler.inserted_eq hins with ⟨-, rfl, -⟩ | ⟨mergeName, -, rfl, -, -⟩
  · rfl
  · obtain ⟨key, value, hk, hc⟩ := chain_cons (mergeName, c.mergeState) states
    rw [List.singleton_append, hc, flattened_cons, subGraphs_chained value hk,
      c.subGraphs_mergeState, reports_append, List.flatMap_nil, c.reports_mergeState value hk]
    rfl

end Merge

mutual

theorem Compiles.reports_eq {c : Compiler} {after : String → String} {names final : Names}
    {steps : List Document} {states : List (String × State)} (hn : names.claimed.Nodup)
    (hafter : Follows after (flattened (chain states))) :
    Compiles c names steps states final →
    reports (flattened (chain states)) = reportable (walk c after steps)
  | .nil => by rw [walk]; rfl
  | @Compiles.cons _ _ _ _ _ name fields rest lists graphs state merge states
      hchecked hall hof hins hrest => by
      obtain ⟨hadd, -, hbehind⟩ := step_claims hn hchecked hall hins
      rw [List.cons_append] at hafter ⊢
      have hmerge := mergeVisit_eq hins hchecked.named hafter
      obtain ⟨key, value, hk, hc⟩ := chain_cons (name, state) (merge ++ states)
      have hgraphs : subGraphs (.object (state.insert key value)) = graphs := by
        rw [subGraphs_chained value hk, hof.subGraphs_eq]
      rw [hc, flattened_cons, hgraphs] at hafter ⊢
      have hlists := hall.reports_eq hadd.nodup
        (hafter.subset fun _ hm => List.mem_append_left _ (List.mem_cons_of_mem _ hm))
      have htail := hrest.reports_eq hbehind.nodup (hafter.subset fun _ hm =>
        List.mem_append_right _ (flattened_chain_subset merge states hm))
      rw [reports_append, reports_cons, hof.reports_eq value hk hchecked.named, hlists,
        reports_merge hins, htail]
      rw [walk_cons, entryLists, hof.subLists_eq, hmerge]
      simp only [reportable_append, List.append_assoc]

theorem CompilesAll.reports_eq {c : Compiler} {after : String → String} {names final : Names}
    {lists : List (List Document)} {graphs : List Document} (hn : names.claimed.Nodup)
    (hafter : Follows after (graphs.flatMap allStates)) :
    CompilesAll c names lists graphs final →
    reports (graphs.flatMap allStates) = reportable (lists.flatMap (walk c after))
  | .nil => rfl
  | @CompilesAll.cons _ _ _ _ _ states _ _ hfirst _ hrest => by
      have hclaims := hfirst.claims hn
      have hgraph := allStates_graphOf (hfirst.names_nodup hn)
      rw [List.flatMap_cons, hgraph] at hafter
      have hhead := hfirst.reports_eq hn (hafter.subset (List.subset_append_left _ _))
      have htail := hrest.reports_eq hclaims.nodup (hafter.subset (List.subset_append_right _ _))
      rw [List.flatMap_cons, List.flatMap_cons, hgraph, reports_append, reportable_append, hhead,
        htail]

end

/-- The states of a compiled plan are reported in the order in which a walk through the plan
visits its steps. -/
theorem reports_definition {c : Compiler} {plan : List Document} {definition : Document}
    (h : c.definition (.list plan) = .ok definition) :
    reports (allStates definition) = reportable (walk c (follower definition) plan) := by
  obtain ⟨steps, states, final, hs, hc, -, rfl⟩ := compiles_of_definition h
  obtain rfl : plan = steps := Document.list.inj hs
  have hafter : Follows (follower (graphOf states)) (allStates (graphOf states)) := by
    rintro ⟨name, state⟩ hn next hnext
    rw [follower, Fields.get?_of_mem (stateNames_nodup h) hn, Option.bind_some, hnext]
    rfl
  rw [allStates_graphOf (hc.names_nodup List.nodup_nil)] at hafter ⊢
  exact hc.reports_eq List.nodup_nil hafter

end StepGraph.Plan
