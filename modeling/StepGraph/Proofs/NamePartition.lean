/-
The names of a definition: those of the steps and those of the merge states.

All states of a definition, at all depths, differ in name.  Each list of the
plan has its graph, in which every step has its state in authored order; what
else stands there are the merge states.  A merge state may be named before
the steps behind it are reached; it still has a name that no step of the
plan has.
-/
import StepGraph.Proofs.AuthoredNames
import StepGraph.Proofs.Placement

namespace StepGraph.Plan

/-- The states of a graph are those of the steps of a list in order, each under the name of its
step, and behind each fan-out that no merge step follows one more of the merge type; the last
argument lists the names of these. -/
inductive Woven (c : Compiler) : List Document → Fields Document → List String → Prop
  | nil : Woven c [] [] []
  | step {entry state : Document} {rest : List Document} {name : String}
      {states : Fields Document} {merges : List String} :
      entry.textAt? "Name" = some name → c.wantsMerge entry rest = false →
      Woven c rest states merges → Woven c (entry :: rest) ((name, state) :: states) merges
  | fanOut {entry state merge : Document} {rest : List Document} {name mergeName : String}
      {states : Fields Document} {merges : List String} :
      entry.textAt? "Name" = some name → c.wantsMerge entry rest = true →
      merge.textAt? "Type" = some c.mergeType → Woven c rest states merges →
      Woven c (entry :: rest) ((name, state) :: (mergeName, merge) :: states)
        (mergeName :: merges)

/-- A name that a merge state of some graph of a definition has. -/
def Inserted (c : Compiler) (plan : List Document) (definition : Document) (name : String) :
    Prop :=
  ∃ steps graph merges, Placed plan definition steps graph ∧
    Woven c steps (statesOf graph) merges ∧ name ∈ merges

/-- The names of a definition are those of the steps and those of the merge states, each of
them once. -/
structure NamePartition (c : Compiler) (plan : List Document) (definition : Document) :
    Prop where
  distinct : (stateNames definition).Nodup
  /-- Every list has its graph, with the states of its steps. -/
  woven : ∀ steps, ListIn plan steps →
    ∃ graph merges, Placed plan definition steps graph ∧ Woven c steps (statesOf graph) merges
  authored : ∀ name, name ∈ authoredNames plan ↔ Authored plan name
  inserted : ∃ inserted, (∀ name, name ∈ inserted ↔ Inserted c plan definition name) ∧
    (stateNames definition).Perm (authoredNames plan ++ inserted)
  disjoint : ∀ name, Authored plan name → ¬ Inserted c plan definition name

/-! ## One graph -/

/-- Which states were inserted can be read off a graph and its list. -/
theorem Woven.unique {c : Compiler} {steps : List Document} {states : Fields Document}
    {merges merges' : List String} (h : Woven c steps states merges)
    (h' : Woven c steps states merges') : merges = merges' := by
  induction h generalizing merges' with
  | nil =>
      cases h'
      rfl
  | step _ hw _ ih =>
      cases h' with
      | step _ _ hrest => exact ih hrest
      | fanOut _ hw' _ _ => exact absurd (hw.symm.trans hw') Bool.false_ne_true
  | fanOut _ hw _ _ ih =>
      cases h' with
      | step _ hw' _ => exact absurd (hw'.symm.trans hw) Bool.false_ne_true
      | fanOut _ _ _ hrest => rw [ih hrest]

theorem Woven.mem_names_iff {c : Compiler} {steps : List Document} {states : Fields Document}
    {merges : List String} (h : Woven c steps states merges) {name : String} :
    name ∈ Fields.names states ↔
      (∃ entry ∈ steps, entry.textAt? "Name" = some name) ∨ name ∈ merges := by
  induction h with
  | nil => simp [Fields.names]
  | step hn _ _ ih =>
      simp only [Fields.names, List.map_cons, List.mem_cons, exists_eq_or_imp] at ih ⊢
      rw [ih, hn, Option.some.injEq, eq_comm, or_assoc]
  | fanOut hn _ _ _ ih =>
      simp only [Fields.names, List.map_cons, List.mem_cons, exists_eq_or_imp] at ih ⊢
      rw [ih, hn, Option.some.injEq, eq_comm]
      simp only [or_assoc, or_left_comm]

theorem Aligned.woven {c : Compiler} {authored : List String} {steps : List Document}
    {states : List (String × State)} (h : Aligned c authored steps states) :
    ∃ merges, Woven c steps (chain states) merges ∧ ∀ merge ∈ merges, merge ∉ authored := by
  induction h with
  | nil => exact ⟨[], .nil, fun _ hm => absurd hm List.not_mem_nil⟩
  | @step fields rest name state states hfor hw _ ih =>
      obtain ⟨merges, hwoven, hnew⟩ := ih
      obtain ⟨key, value, -, hc⟩ := chain_cons (name, state) states
      rw [hc]
      exact ⟨merges, .step (Document.textAt?_object hfor.named) hw hwoven, hnew⟩
  | @fanOut fields rest name merge state states hfor hw hm _ ih =>
      obtain ⟨merges, hwoven, hnew⟩ := ih
      obtain ⟨key, value, -, hc⟩ := chain_cons (name, state) ((merge, c.mergeState) :: states)
      obtain ⟨key', value', hk, hc'⟩ := chain_cons (merge, c.mergeState) states
      rw [hc, hc']
      refine ⟨merge :: merges, .fanOut (Document.textAt?_object hfor.named) hw ?_ hwoven, ?_⟩
      · rw [textAt?_chained value' hk]
        rfl
      · exact List.forall_mem_cons.mpr ⟨hm, hnew⟩

/-! ## All graphs -/

mutual

/-- The names of the steps stand among those of the states in the order in which they were
collected. -/
theorem Compiles.authoredNames_sublist {c : Compiler} {names final : Names}
    {steps : List Document} {states : List (String × State)} (hn : names.claimed.Nodup) :
    Compiles c names steps states final →
    List.Sublist (authoredNames steps) (sequenceNames states)
  | .nil => .slnil
  | @Compiles.cons _ _ _ _ _ name _ _ _ _ _ _ _ hchecked hall hof hins hrest => by
      obtain ⟨hadd, -, hmerge⟩ := step_claims hn hchecked hall hins
      have hown := hall.authoredNames_sublist hadd.nodup
      have hbehind := hrest.authoredNames_sublist hmerge.nodup
      rw [authoredNames_eq, List.flatMap_cons, ← authoredNames_eq, entryNames_object,
        ownNames_of_named hchecked.named, hof.subLists_eq]
      rw [sequenceNames_append, sequenceNames, List.flatMap_cons, hof.subGraphs_eq]
      refine List.Sublist.append ?_ hbehind
      exact (hown.trans (List.sublist_append_left _ _)).cons_cons name

theorem CompilesAll.authoredNames_sublist {c : Compiler} {names final : Names}
    {lists : List (List Document)} {graphs : List Document} (hn : names.claimed.Nodup) :
    CompilesAll c names lists graphs final →
    List.Sublist (lists.flatMap authoredNames) (graphs.flatMap stateNames)
  | .nil => .slnil
  | .cons hfirst _ hrest => by
      have hclaims := hfirst.claims hn
      rw [List.flatMap_cons, List.flatMap_cons, stateNames_graphOf (hfirst.names_nodup hn)]
      exact (hfirst.authoredNames_sublist hn).append (hrest.authoredNames_sublist hclaims.nodup)

end

/-- In a list that was compiled no name stands twice. -/
theorem GraphFor.authoredNames_nodup {c : Compiler} {authored : List String}
    {steps : List Document} {graph : Document} (h : GraphFor c authored steps graph) :
    (authoredNames steps).Nodup := by
  obtain ⟨names, states, final, hc, hn, -, -, -⟩ := h
  exact (hc.claims hn).own_nodup.sublist (hc.authoredNames_sublist hn)

theorem mem_stateNames_iff {definition : Document} {name : String} :
    name ∈ stateNames definition ↔
      ∃ graph, GraphIn definition graph ∧ name ∈ Fields.names (statesOf graph) := by
  simp only [stateNames, Fields.names, List.mem_map, mem_allStates_iff]
  constructor
  · rintro ⟨named, ⟨graph, hg, hm⟩, rfl⟩
    exact ⟨graph, hg, named, hm, rfl⟩
  · rintro ⟨graph, hg, named, hm, rfl⟩
    exact ⟨named, ⟨graph, hg, hm⟩, rfl⟩

section Definition

variable {c : Compiler} {authored : List String} {plan steps : List Document}
  {definition graph : Document}

/-- In its place every graph is woven from its list and merge states with names that nobody
wrote. -/
theorem Placed.woven (h : GraphFor c authored plan definition)
    (hp : Placed plan definition steps graph) :
    ∃ merges, Woven c steps (statesOf graph) merges ∧ ∀ merge ∈ merges, merge ∉ authored := by
  obtain ⟨states, haligned, -, -, -, hs⟩ := (hp.graphFor h).aligned
  rw [hs]
  exact haligned.woven

theorem Inserted.not_mem (h : GraphFor c authored plan definition) {name : String}
    (hi : Inserted c plan definition name) : name ∉ authored := by
  obtain ⟨steps, graph, merges, hp, hw, hm⟩ := hi
  obtain ⟨merges', hw', hnew⟩ := hp.woven h
  exact hnew name (hw.unique hw' ▸ hm)

/-- Every state has the name of a step or was inserted. -/
theorem mem_stateNames_iff_authored_or_inserted (h : GraphFor c authored plan definition)
    {name : String} :
    name ∈ stateNames definition ↔ Authored plan name ∨ Inserted c plan definition name := by
  rw [mem_stateNames_iff]
  constructor
  · rintro ⟨graph, hg, hm⟩
    obtain ⟨steps, hp⟩ := hg.placed h
    obtain ⟨merges, hw, -⟩ := hp.woven h
    rcases hw.mem_names_iff.mp hm with ⟨entry, he, ht⟩ | hm
    · exact .inl ⟨steps, entry, hp.listIn, he, ht⟩
    · exact .inr ⟨steps, graph, merges, hp, hw, hm⟩
  · rintro (⟨steps, entry, hl, he, ht⟩ | ⟨steps, graph, merges, hp, hw, hm⟩)
    · obtain ⟨graph, hp⟩ := hl.placed h
      obtain ⟨merges, hw, -⟩ := hp.woven h
      exact ⟨graph, hp.graphIn, hw.mem_names_iff.mpr (.inl ⟨entry, he, ht⟩)⟩
    · exact ⟨graph, hp.graphIn, hw.mem_names_iff.mpr (.inr hm)⟩

end Definition

/-- The names of a compiled plan are those of its steps and those of the merge states. -/
theorem definition_namePartition {c : Compiler} {plan : List Document} {definition : Document}
    (h : c.definition (.list plan) = .ok definition) : NamePartition c plan definition := by
  have hfor := graphFor_of_definition h
  obtain ⟨steps, states, final, hs, hc, -, rfl⟩ := compiles_of_definition h
  obtain rfl : plan = steps := Document.list.inj hs
  have hdistinct := stateNames_nodup h
  have hdisjoint : ∀ name, Authored plan name → ¬ Inserted c plan (graphOf states) name :=
    fun name ha hi => hi.not_mem hfor (mem_authoredNames_iff.mpr ha)
  obtain ⟨inserted, hp⟩ := (hc.authoredNames_sublist List.nodup_nil).exists_perm_append
  rw [← stateNames_graphOf (hc.names_nodup List.nodup_nil)] at hp
  refine ⟨hdistinct, ?_, fun name => mem_authoredNames_iff, ⟨inserted, ?_, hp⟩, hdisjoint⟩
  · intro steps hl
    obtain ⟨graph, hplaced⟩ := hl.placed hfor
    obtain ⟨merges, hw, -⟩ := hplaced.woven hfor
    exact ⟨graph, merges, hplaced, hw⟩
  · intro name
    -- what is left over beside the authored names is what was inserted
    have hparts := (hp.nodup_iff.mp hdistinct)
    have hmem := hp.mem_iff (a := name)
    rw [mem_stateNames_iff_authored_or_inserted hfor, List.mem_append,
      mem_authoredNames_iff] at hmem
    have hnew : name ∈ inserted → ¬ Authored plan name := fun hi ha =>
      (List.nodup_append.mp hparts).2.2 name (mem_authoredNames_iff.mpr ha) name hi rfl
    have hold := hdisjoint name
    tauto

/-- The merge state of `forkedPlan` gets the second name because the first stands in a branch. -/
theorem forkedGraph_namePartition :
    ({} : Compiler).definition (.list forkedPlan) = .ok forkedGraph ∧
      NamePartition {} forkedPlan forkedGraph :=
  ⟨rfl, definition_namePartition rfl⟩

end StepGraph.Plan
