/-
Which list a graph was compiled from.

One level of a compilation is described by `Aligned`: the states of a list
are those of its steps in order, with a merge state behind each fan-out that
wants one.  Every graph of a definition stands in the place of a list of the
plan and is aligned with it, and every list has such a graph.
-/
import Mathlib.Data.List.Forall2
import Mathlib.Data.List.Zip
import StepGraph.Proofs.NameSupply

namespace StepGraph.Plan

/-- A graph was compiled from a list of steps at a time when no name was claimed twice. -/
def GraphFor (c : Compiler) (authored : List String) (steps : List Document)
    (graph : Document) : Prop :=
  ∃ names states final, Compiles c names steps states final ∧ names.claimed.Nodup ∧
    names.authored = authored ∧ states ≠ [] ∧ graph = graphOf states

/-- A state was compiled from a step. -/
structure StateFor (c : Compiler) (authored : List String) (fields : Fields Document)
    (name : String) (state : State) : Prop where
  named : fields.get? "Name" = some (.string name)
  built : ∃ lists graphs, StateOf fields lists graphs state
  noNext : state.get? "Next" = none
  noEnd : state.get? "End" = none
  graphs : List.Forall₂ (GraphFor c authored) (subLists fields) (subGraphs (.object state))

/-- The states of a list of steps: that of each step, and a merge state with a name that
nobody wrote behind each fan-out that no merge step follows. -/
inductive Aligned (c : Compiler) (authored : List String) :
    List Document → List (String × State) → Prop
  | nil : Aligned c authored [] []
  | step {fields : Fields Document} {rest : List Document} {name : String} {state : State}
      {states : List (String × State)} :
      StateFor c authored fields name state → c.wantsMerge (.object fields) rest = false →
      Aligned c authored rest states →
      Aligned c authored (.object fields :: rest) ((name, state) :: states)
  | fanOut {fields : Fields Document} {rest : List Document} {name merge : String}
      {state : State} {states : List (String × State)} :
      StateFor c authored fields name state → c.wantsMerge (.object fields) rest = true →
      merge ∉ authored → Aligned c authored rest states →
      Aligned c authored (.object fields :: rest)
        ((name, state) :: (merge, c.mergeState) :: states)

theorem CompilesAll.graphsFor {c : Compiler} : ∀ {names final : Names}
    {lists : List (List Document)} {graphs : List Document},
    CompilesAll c names lists graphs final → names.claimed.Nodup →
    List.Forall₂ (GraphFor c names.authored) lists graphs
  | _, _, _, _, .nil, _ => .nil
  | _, _, _, _, .cons hfirst hne hrest, hn => by
      have hclaims := hfirst.claims hn
      have htail := hrest.graphsFor hclaims.nodup
      rw [hclaims.authored] at htail
      exact .cons ⟨_, _, _, hfirst, hn, rfl, hne, rfl⟩ htail

theorem Compiles.aligned {c : Compiler} : ∀ {names final : Names} {steps : List Document}
    {states : List (String × State)},
    Compiles c names steps states final → names.claimed.Nodup →
    Aligned c names.authored steps states
  | _, _, _, _, .nil, _ => .nil
  | names, _, _, _, .cons hchecked hall hof hins hrest, hn => by
      obtain ⟨hadd, hafter, hbehind⟩ := step_claims hn hchecked hall hins
      have htail := hrest.aligned hbehind.nodup
      rw [hbehind.authored] at htail
      have hgraphs := hall.graphsFor hadd.nodup
      rw [hadd.authored, ← hof.subLists_eq, ← hof.subGraphs_eq] at hgraphs
      have hstate : StateFor c names.authored _ _ _ :=
        ⟨hchecked.named, ⟨_, _, hof⟩, (hof.get?_eq (by decide)).trans hchecked.noNext,
          (hof.get?_eq (by decide)).trans hchecked.noEnd, hgraphs⟩
      rcases c.inserted_eq hins with ⟨hw, rfl, -⟩ | ⟨merge, hw, rfl, -, hfree⟩
      · exact .step hstate hw htail
      · have hnew := (Names.taken_eq_false_iff.mp hfree).2
        rw [hafter.authored] at hnew
        exact .fanOut hstate hw hnew htail

/-- One level of a graph that was compiled from a list. -/
theorem GraphFor.aligned {c : Compiler} {authored : List String} {steps : List Document}
    {graph : Document} (h : GraphFor c authored steps graph) :
    ∃ states, Aligned c authored steps states ∧ (Fields.names states).Nodup ∧ states ≠ [] ∧
      graph = graphOf states ∧ statesOf graph = chain states := by
  obtain ⟨names, states, final, hc, hn, rfl, hne, rfl⟩ := h
  have hd := hc.names_nodup hn
  exact ⟨states, hc.aligned hn, hd, hne, rfl, link_eq_chain hd⟩

theorem Aligned.state_of_entry {c : Compiler} {authored : List String} {steps : List Document}
    {states : List (String × State)} (h : Aligned c authored steps states)
    {entry : Document} (he : entry ∈ steps) :
    ∃ fields name state, entry = .object fields ∧ StateFor c authored fields name state ∧
      (name, state) ∈ states := by
  induction h with
  | nil => simp at he
  | step hs _ _ ih =>
      rcases List.mem_cons.mp he with rfl | he
      · exact ⟨_, _, _, rfl, hs, List.mem_cons_self⟩
      · obtain ⟨fields, name, state, rfl, hfor, hm⟩ := ih he
        exact ⟨fields, name, state, rfl, hfor, List.mem_cons_of_mem _ hm⟩
  | fanOut hs _ _ _ ih =>
      rcases List.mem_cons.mp he with rfl | he
      · exact ⟨_, _, _, rfl, hs, List.mem_cons_self⟩
      · obtain ⟨fields, name, state, rfl, hfor, hm⟩ := ih he
        exact ⟨fields, name, state, rfl, hfor,
          List.mem_cons_of_mem _ (List.mem_cons_of_mem _ hm)⟩

/-- Every state of a list is that of a step or a merge state. -/
theorem Aligned.origin {c : Compiler} {authored : List String} {steps : List Document}
    {states : List (String × State)} (h : Aligned c authored steps states)
    {name : String} {state : State} (hm : (name, state) ∈ states) :
    (∃ fields, .object fields ∈ steps ∧ StateFor c authored fields name state) ∨
      state = c.mergeState := by
  induction h with
  | nil => simp at hm
  | step hs _ _ ih =>
      rcases List.mem_cons.mp hm with hm | hm
      · obtain ⟨rfl, rfl⟩ := Prod.mk.inj hm
        exact .inl ⟨_, List.mem_cons_self, hs⟩
      · rcases ih hm with ⟨fields, hf, hfor⟩ | he
        · exact .inl ⟨fields, List.mem_cons_of_mem _ hf, hfor⟩
        · exact .inr he
  | fanOut hs _ _ _ ih =>
      rcases List.mem_cons.mp hm with hm | hm
      · obtain ⟨rfl, rfl⟩ := Prod.mk.inj hm
        exact .inl ⟨_, List.mem_cons_self, hs⟩
      · rcases List.mem_cons.mp hm with hm | hm
        · exact .inr (Prod.mk.inj hm).2
        · rcases ih hm with ⟨fields, hf, hfor⟩ | he
          · exact .inl ⟨fields, List.mem_cons_of_mem _ hf, hfor⟩
          · exact .inr he

/-! ## Every place is filled -/

section Places

variable {c : Compiler} {authored : List String} {plan steps : List Document}
  {definition graph : Document}

/-- The state that stands in a graph under the name of a step is that of the step. -/
theorem GraphFor.stateFor (h : GraphFor c authored steps graph) {fields : Fields Document}
    {name : String} {document : Document} (hf : .object fields ∈ steps)
    (hname : fields.get? "Name" = some (.string name)) (hm : (name, document) ∈ statesOf graph) :
    ∃ state, StateFor c authored fields name state ∧
      subGraphs document = subGraphs (.object state) := by
  obtain ⟨states, haligned, hd, -, -, hs⟩ := h.aligned
  rw [hs] at hm
  obtain ⟨state, key, value, hst, hk, rfl⟩ := mem_of_mem_chain hm
  obtain ⟨fields', name', state', ⟨⟩, hfor, hst'⟩ := haligned.state_of_entry hf
  obtain rfl : name = name' := by simpa using hname.symm.trans hfor.named
  -- names differ, so the two states of this name are one
  have he : state' = state :=
    Option.some.inj ((Fields.get?_of_mem hd hst').symm.trans (Fields.get?_of_mem hd hst))
  exact ⟨state, he ▸ hfor, subGraphs_chained value hk⟩

theorem Placed.graphFor (h : GraphFor c authored plan definition)
    (hp : Placed plan definition steps graph) : GraphFor c authored steps graph := by
  induction hp with
  | root => exact h
  | nested _ hf hname hm hz ih =>
      obtain ⟨state, hfor, hsub⟩ := ih.stateFor hf hname hm
      rw [hsub] at hz
      exact (List.forall₂_iff_zip.mp hfor.graphs).2 hz

theorem mem_zip_of_mem_left {α β : Type} {r : α → β → Prop} {xs : List α} {ys : List β}
    (h : List.Forall₂ r xs ys) {x : α} (hx : x ∈ xs) : ∃ y, (x, y) ∈ xs.zip ys := by
  induction h with
  | nil => simp at hx
  | @cons _ y _ _ _ _ ih =>
      rcases List.mem_cons.mp hx with rfl | hx
      · exact ⟨y, List.mem_cons_self⟩
      · obtain ⟨y', hy⟩ := ih hx
        exact ⟨y', List.mem_cons_of_mem _ hy⟩

theorem mem_zip_of_mem_right {α β : Type} {r : α → β → Prop} {xs : List α} {ys : List β}
    (h : List.Forall₂ r xs ys) {y : β} (hy : y ∈ ys) : ∃ x, (x, y) ∈ xs.zip ys := by
  obtain ⟨x, hx⟩ := mem_zip_of_mem_left h.flip hy
  refine ⟨x, ?_⟩
  rw [← List.zip_swap]
  exact List.mem_map_of_mem hx

/-- Every graph of a definition stands in the place of a list. -/
theorem GraphIn.placed (h : GraphFor c authored plan definition)
    (hg : GraphIn definition graph) : ∃ steps, Placed plan definition steps graph := by
  induction hg with
  | root => exact ⟨plan, .root⟩
  | @nested graph document sub name _ hm hsub ih =>
      obtain ⟨steps, hp⟩ := ih
      obtain ⟨states, haligned, -, -, -, hs⟩ := (hp.graphFor h).aligned
      have hm' := hm
      rw [hs] at hm'
      obtain ⟨state, key, value, hst, hk, rfl⟩ := mem_of_mem_chain hm'
      rcases haligned.origin hst with ⟨fields, hf, hfor⟩ | rfl
      · have hgraphs := hfor.graphs
        rw [← subGraphs_chained value hk] at hgraphs
        obtain ⟨list, hz⟩ := mem_zip_of_mem_right hgraphs hsub
        exact ⟨list, hp.nested hf hfor.named hm hz⟩
      · rw [subGraphs_chained value hk, c.subGraphs_mergeState] at hsub
        simp at hsub

/-- Every list of a plan has a graph in its place. -/
theorem ListIn.placed (h : GraphFor c authored plan definition)
    (hl : ListIn plan steps) : ∃ graph, Placed plan definition steps graph := by
  induction hl with
  | root => exact ⟨definition, .root⟩
  | nested _ hf hsub ih =>
      obtain ⟨graph, hp⟩ := ih
      obtain ⟨states, haligned, -, -, -, hs⟩ := (hp.graphFor h).aligned
      obtain ⟨fields, name, state, ⟨⟩, hfor, hm⟩ := haligned.state_of_entry hf
      obtain ⟨key, value, hk, hmem⟩ := mem_chain_of_mem hm
      have hgraphs := hfor.graphs
      rw [← subGraphs_chained value hk] at hgraphs
      obtain ⟨subGraph, hz⟩ := mem_zip_of_mem_left hgraphs hsub
      exact ⟨subGraph, hp.nested hf hfor.named (hs ▸ hmem) hz⟩

end Places

/-- The graph of a plan was compiled from it. -/
theorem graphFor_of_definition {c : Compiler} {steps : List Document} {definition : Document}
    (h : c.definition (.list steps) = .ok definition) :
    GraphFor c (authoredNames steps) steps definition := by
  obtain ⟨steps', states, final, hs, hc, hne, rfl⟩ := compiles_of_definition h
  obtain rfl : steps = steps' := Document.list.inj hs
  exact ⟨_, states, final, hc, List.nodup_nil, rfl, hne, rfl⟩

end StepGraph.Plan
