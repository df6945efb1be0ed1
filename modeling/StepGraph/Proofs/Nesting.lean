/-
Lists inside lists, and graphs inside graphs.

A step's shape says which of the lists it holds are compiled, and a state's
`Type` says which graphs lie in it.  The two sides are described here without
the compiler: the lists of a plan, the graphs of a definition, and which graph
stands in the place of which list.
-/
import StepGraph.Plan.Compiler

namespace StepGraph

/-! ## Sizes, for recursion over what lies in a document -/

theorem Fields.sizeOf_lt_of_get? {fields : Fields Document} {name : String} {value : Document}
    (h : fields.get? name = some value) : sizeOf value < sizeOf fields := by
  have hm := List.sizeOf_lt_of_mem (Fields.mem_of_get? h)
  simp only [Prod.mk.sizeOf_spec] at hm
  omega

theorem Document.sizeOf_lt_of_field? {document value : Document} {name : String}
    (h : document.field? name = some value) : sizeOf value < sizeOf document := by
  cases document with
  | object fields =>
      have := Fields.sizeOf_lt_of_get? h
      simp only [Document.object.sizeOf_spec]
      omega
  | _ => simp [Document.field?] at h

theorem Document.sizeOf_lt_of_items? {document : Document} {items : List Document}
    (h : document.items? = some items) : sizeOf items < sizeOf document := by
  cases document with
  | list items' =>
      simp only [Document.items?, Option.some.injEq] at h
      subst h
      simp
  | _ => simp [Document.items?] at h

theorem Document.sizeOf_lt_of_fields? {document : Document} {fields : Fields Document}
    (h : document.fields? = some fields) : sizeOf fields < sizeOf document := by
  cases document with
  | object fields' =>
      simp only [Document.fields?, Option.some.injEq] at h
      subst h
      simp
  | _ => simp [Document.fields?] at h

namespace Plan

/-! ## The lists of a plan -/

/-- The list in a field of a step. -/
def listAt? (fields : Fields Document) (name : String) : Option (List Document) :=
  (fields.get? name).bind Document.items?

/-- The lists in a step that its shape compiles, in the order in which they are compiled.
What ought to be a list and is none is passed over. -/
def subLists (fields : Fields Document) : List (List Document) :=
  match Shape.of fields with
  | .plain => []
  | .parallel => ((listAt? fields "Branches").getD []).filterMap Document.items?
  | .choice => (listAt? fields "IsTrue").toList ++ (listAt? fields "IsFalse").toList

/-- The lists in an entry that are compiled, none if it is no step. -/
def entryLists : Document → List (List Document)
  | .object fields => subLists fields
  | _ => []

/-- The lists of a plan: the plan itself and, at any depth, the lists that the shapes of
its steps compile. -/
inductive ListIn (plan : List Document) : List Document → Prop
  | root : ListIn plan plan
  | nested {steps sub : List Document} {fields : Fields Document} :
      ListIn plan steps → Document.object fields ∈ steps → sub ∈ subLists fields →
      ListIn plan sub

/-- A name that the author gave to a step of some list of a plan. -/
def Authored (plan : List Document) (name : String) : Prop :=
  ∃ steps entry, ListIn plan steps ∧ entry ∈ steps ∧ entry.textAt? "Name" = some name

theorem sizeOf_lt_of_listAt? {fields : Fields Document} {name : String} {items : List Document}
    (h : listAt? fields name = some items) : sizeOf items < sizeOf fields := by
  obtain ⟨value, hv, hi⟩ := Option.bind_eq_some_iff.mp h
  have h1 := Fields.sizeOf_lt_of_get? hv
  have h2 := Document.sizeOf_lt_of_items? hi
  omega

theorem sizeOf_lt_of_get?_list {fields : Fields Document} {name : String}
    {items : List Document} (h : fields.get? name = some (.list items)) :
    sizeOf items < sizeOf fields := by
  have hitems : listAt? fields name = some items := by
    rw [listAt?, h]
    rfl
  exact sizeOf_lt_of_listAt? hitems

theorem sizeOf_lt_of_mem_subLists {fields : Fields Document} {sub : List Document}
    (h : sub ∈ subLists fields) : sizeOf sub < sizeOf fields := by
  unfold subLists at h
  split at h
  · simp at h
  · obtain ⟨branch, hb, hs⟩ := List.mem_filterMap.mp h
    cases hl : listAt? fields "Branches" with
    | none => simp [hl] at hb
    | some branches =>
        rw [hl, Option.getD_some] at hb
        have h1 := sizeOf_lt_of_listAt? hl
        have h2 := List.sizeOf_lt_of_mem hb
        have h3 := Document.sizeOf_lt_of_items? hs
        omega
  · rcases List.mem_append.mp h with h | h
    · exact sizeOf_lt_of_listAt? (Option.mem_toList.mp h)
    · exact sizeOf_lt_of_listAt? (Option.mem_toList.mp h)

theorem sizeOf_lt_of_mem_entryLists {entry : Document} {sub : List Document}
    (h : sub ∈ entryLists entry) : sizeOf sub < sizeOf entry := by
  cases entry with
  | object fields =>
      have := sizeOf_lt_of_mem_subLists h
      simp only [Document.object.sizeOf_spec]
      omega
  | _ => simp [entryLists] at h

theorem sizeOf_lt_cons_of_mem_entryLists {entry : Document} {sub : List Document}
    (h : sub ∈ entryLists entry) (rest : List Document) : sizeOf sub < sizeOf (entry :: rest) :=
  Nat.lt_trans (sizeOf_lt_of_mem_entryLists h) (List.sizeOf_lt_of_mem List.mem_cons_self)

/-! ## The graphs of a definition -/

/-- The states of a graph, in their order. -/
def statesOf (graph : Document) : Fields Document :=
  ((graph.field? "States").bind Document.fields?).getD []

/-- The graphs in a state: the elements of `Branches` of a fan-out, `IsTrue` and `IsFalse` of
a choice. -/
def subGraphs (state : Document) : List Document :=
  match state.textAt? "Type" with
  | some type =>
      if type = "Parallel" then ((state.field? "Branches").bind Document.items?).getD []
      else if type = "Choice" then
        (state.field? "IsTrue").toList ++ (state.field? "IsFalse").toList
      else []
  | none => []

/-- The graphs of a definition: the definition itself and, at any depth, the graphs in its
states. -/
inductive GraphIn (definition : Document) : Document → Prop
  | root : GraphIn definition definition
  | nested {graph state sub : Document} {name : String} :
      GraphIn definition graph → (name, state) ∈ statesOf graph → sub ∈ subGraphs state →
      GraphIn definition sub

/-- A graph stands in a definition where a list stands in the plan: the definition stands for
the plan, and the graphs in the state of a step for the lists that the step's shape compiles,
each for the one in its place. -/
inductive Placed (plan : List Document) (definition : Document) :
    List Document → Document → Prop
  | root : Placed plan definition plan definition
  | nested {steps sub : List Document} {graph state subGraph : Document}
      {fields : Fields Document} {name : String} :
      Placed plan definition steps graph →
      Document.object fields ∈ steps → fields.get? "Name" = some (.string name) →
      (name, state) ∈ statesOf graph → (sub, subGraph) ∈ (subLists fields).zip (subGraphs state) →
      Placed plan definition sub subGraph

theorem sizeOf_lt_of_mem_statesOf {graph : Document} {named : String × Document}
    (h : named ∈ statesOf graph) : sizeOf named.2 < sizeOf graph := by
  unfold statesOf at h
  cases hs : (graph.field? "States").bind Document.fields? with
  | none => simp [hs] at h
  | some states =>
      rw [hs, Option.getD_some] at h
      obtain ⟨value, hv, hf⟩ := Option.bind_eq_some_iff.mp hs
      have h1 := Document.sizeOf_lt_of_field? hv
      have h2 := Document.sizeOf_lt_of_fields? hf
      have h3 := List.sizeOf_lt_of_mem h
      obtain ⟨name, state⟩ := named
      simp only [Prod.mk.sizeOf_spec] at h3
      simp only
      omega

theorem sizeOf_lt_of_mem_subGraphs {state sub : Document} (h : sub ∈ subGraphs state) :
    sizeOf sub < sizeOf state := by
  unfold subGraphs at h
  split at h
  · split at h
    · cases hb : (state.field? "Branches").bind Document.items? with
      | none => simp [hb] at h
      | some branches =>
          rw [hb, Option.getD_some] at h
          obtain ⟨value, hv, hi⟩ := Option.bind_eq_some_iff.mp hb
          have h1 := Document.sizeOf_lt_of_field? hv
          have h2 := Document.sizeOf_lt_of_items? hi
          have h3 := List.sizeOf_lt_of_mem h
          omega
    · split at h
      · rcases List.mem_append.mp h with h | h
        · exact Document.sizeOf_lt_of_field? (Option.mem_toList.mp h)
        · exact Document.sizeOf_lt_of_field? (Option.mem_toList.mp h)
      · simp at h
  · simp at h

/-- All states of a definition: each state of a graph, and behind it those of the graphs
in it. -/
def allStates (graph : Document) : Fields Document :=
  (statesOf graph).attach.flatMap fun ⟨named, hn⟩ =>
    named :: (subGraphs named.2).attach.flatMap fun ⟨sub, hs⟩ =>
      have : sizeOf sub < sizeOf graph :=
        Nat.lt_trans (sizeOf_lt_of_mem_subGraphs hs) (sizeOf_lt_of_mem_statesOf hn)
      allStates sub
termination_by sizeOf graph

/-- States with all states in their graphs, each in front of those in it. -/
def flattened (states : Fields Document) : Fields Document :=
  states.flatMap fun named => named :: (subGraphs named.2).flatMap allStates

theorem allStates_eq (graph : Document) : allStates graph = flattened (statesOf graph) := by
  rw [allStates]
  simp only [List.flatMap_subtype, List.unattach_attach]
  rfl

theorem flattened_cons (named : String × Document) (states : Fields Document) :
    flattened (named :: states) =
      named :: (subGraphs named.2).flatMap allStates ++ flattened states :=
  List.flatMap_cons

theorem GraphIn.trans {definition middle graph : Document} (h : GraphIn definition middle)
    (h' : GraphIn middle graph) : GraphIn definition graph := by
  induction h' with
  | root => exact h
  | nested _ hm hs ih => exact ih.nested hm hs

theorem GraphIn.allStates_subset {definition graph : Document} (h : GraphIn definition graph) :
    allStates graph ⊆ allStates definition := by
  induction h with
  | root => exact fun _ hn => hn
  | @nested graph state sub name _ hm hs ih =>
      intro named hn
      refine ih ?_
      rw [allStates_eq graph]
      refine List.mem_flatMap.mpr ⟨(name, state), hm, ?_⟩
      exact List.mem_cons_of_mem _ (List.mem_flatMap.mpr ⟨sub, hs, hn⟩)

/-- What is collected of a graph stands in it or in a graph below it. -/
theorem graphIn_of_mem_allStates (definition : Document) (named : String × Document)
    (h : named ∈ allStates definition) :
    ∃ graph, GraphIn definition graph ∧ named ∈ statesOf graph := by
  rw [allStates_eq] at h
  obtain ⟨top, ht, hn⟩ := List.mem_flatMap.mp h
  rcases List.mem_cons.mp hn with rfl | hn
  · exact ⟨definition, .root, ht⟩
  · obtain ⟨sub, hs, hn⟩ := List.mem_flatMap.mp hn
    have : sizeOf sub < sizeOf definition :=
      Nat.lt_trans (sizeOf_lt_of_mem_subGraphs hs) (sizeOf_lt_of_mem_statesOf ht)
    obtain ⟨graph, hg, hm⟩ := graphIn_of_mem_allStates sub named hn
    exact ⟨graph, (GraphIn.root.nested ht hs).trans hg, hm⟩
termination_by sizeOf definition

/-- All states of a definition are those of its graphs. -/
theorem mem_allStates_iff {definition : Document} {named : String × Document} :
    named ∈ allStates definition ↔
      ∃ graph, GraphIn definition graph ∧ named ∈ statesOf graph := by
  constructor
  · exact graphIn_of_mem_allStates definition named
  · rintro ⟨graph, hg, hm⟩
    refine hg.allStates_subset ?_
    rw [allStates_eq]
    exact List.mem_flatMap.mpr ⟨named, hm, List.mem_cons_self⟩

/-! ## Places -/

theorem Placed.listIn {plan steps : List Document} {definition graph : Document}
    (h : Placed plan definition steps graph) : ListIn plan steps := by
  induction h with
  | root => exact .root
  | nested _ hf _ _ hz ih => exact ih.nested hf (List.of_mem_zip hz).1

theorem Placed.graphIn {plan steps : List Document} {definition graph : Document}
    (h : Placed plan definition steps graph) : GraphIn definition graph := by
  induction h with
  | root => exact .root
  | nested _ _ _ hm hz ih => exact ih.nested hm (List.of_mem_zip hz).2

end Plan

end StepGraph
