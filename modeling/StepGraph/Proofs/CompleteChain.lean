/-
Every compiled graph is one complete chain.

In each graph of a definition, following `Next` from `StartAt` visits the
states one after the other in the order in which they are stored, each once,
and stops at the last, which is the only one with `End`.
-/
import StepGraph.Proofs.Placement

namespace StepGraph.Plan

/-- Following `Next` from a name through states visits a list of names and stops at the last
of them. -/
inductive Visits (states : Fields Document) : String → List String → Prop
  | stop {name : String} {state : Document} :
      states.get? name = some state → state.field? "Next" = none → Visits states name [name]
  | step {name next : String} {state : Document} {path : List String} :
      states.get? name = some state → state.field? "Next" = some (.string next) →
      Visits states next path → Visits states name (name :: path)

/-- What a state says about what follows it: the next state by its name, or that it is the
last. -/
def Leads (state : Document) : Option String → Prop
  | some next => state.field? "Next" = some (.string next) ∧ state.field? "End" = none
  | none => state.field? "End" = some (.bool true) ∧ state.field? "Next" = none

/-- A graph is a chain from its first state to its last. -/
structure CompleteChain (graph : Document) (start : String) (states : Fields Document) : Prop where
  fields : graph = .object [("StartAt", .string start), ("States", .object states)]
  /-- In particular there is a state. -/
  first : (Fields.names states).head? = some start
  distinct : (Fields.names states).Nodup
  visits : Visits states start (Fields.names states)
  leads : ∀ (i : Nat) (named : String × Document), states[i]? = some named →
    Leads named.2 ((states[i + 1]?).map Prod.fst)

/-- A chain is visited from its first state to its last, wherever its states are stored. -/
theorem visits_chain {states : Fields Document} : ∀ {name : String} {state : State}
    {rest : List (String × State)},
    (∀ named ∈ (name, state) :: rest, named.2.get? "Next" = none) →
    (∀ named ∈ chain ((name, state) :: rest), states.get? named.1 = some named.2) →
    Visits states name (Fields.names ((name, state) :: rest))
  | name, state, [], hnext, hstored => by
      have hs := hstored _ List.mem_cons_self
      refine .stop hs ?_
      rw [Document.field?, Fields.get?_insert_of_ne _ _ (by decide)]
      exact hnext _ List.mem_cons_self
  | name, state, (next, after) :: rest, hnext, hstored => by
      have hs := hstored _ List.mem_cons_self
      refine .step hs (Fields.get?_insert_self _ _ _) (visits_chain ?_ ?_)
      · exact fun named hn => hnext named (List.mem_cons_of_mem _ hn)
      · exact fun named hn => hstored named (List.mem_cons_of_mem _ hn)

/-- In a chain every state leads to the one behind it. -/
theorem leads_chain : ∀ {sequence : List (String × State)},
    (∀ named ∈ sequence, named.2.get? "Next" = none ∧ named.2.get? "End" = none) →
    ∀ (i : Nat) (named : String × Document), (chain sequence)[i]? = some named →
      Leads named.2 (((chain sequence)[i + 1]?).map Prod.fst)
  | [], _, i, named, hi => by simp [chain] at hi
  | [(name, state)], h, i, named, hi => by
      obtain ⟨hn, -⟩ := h _ List.mem_cons_self
      cases i with
      | zero =>
          simp only [chain, List.getElem?_cons_zero, Option.some.injEq] at hi
          subst hi
          refine ⟨Fields.get?_insert_self _ _ _, ?_⟩
          rw [Document.field?, Fields.get?_insert_of_ne _ _ (by decide)]
          exact hn
      | succ i => simp [chain] at hi
  | (name, state) :: (next, after) :: rest, h, i, named, hi => by
      obtain ⟨-, he⟩ := h _ List.mem_cons_self
      cases i with
      | zero =>
          simp only [chain, List.getElem?_cons_zero, Option.some.injEq] at hi
          subst hi
          have hnext : (((chain ((name, state) :: (next, after) :: rest))[1]?).map Prod.fst) =
              some next := by
            rw [← List.getElem?_map]
            change (Fields.names (chain ((name, state) :: (next, after) :: rest)))[1]? = some next
            rw [names_chain]
            rfl
          rw [hnext]
          refine ⟨Fields.get?_insert_self _ _ _, ?_⟩
          rw [Document.field?, Fields.get?_insert_of_ne _ _ (by decide)]
          exact he
      | succ i =>
          rw [chain, List.getElem?_cons_succ] at hi
          rw [chain, List.getElem?_cons_succ]
          exact leads_chain (fun named hn => h named (List.mem_cons_of_mem _ hn)) i named hi

/-- No state of a list says by itself what follows it. -/
theorem Aligned.unchained {c : Compiler} {authored : List String} {steps : List Document}
    {states : List (String × State)} (h : Aligned c authored steps states) :
    ∀ named ∈ states, named.2.get? "Next" = none ∧ named.2.get? "End" = none := by
  rintro ⟨name, state⟩ hm
  rcases h.origin hm with ⟨fields, -, hfor⟩ | rfl
  · exact ⟨hfor.noNext, hfor.noEnd⟩
  · exact ⟨rfl, rfl⟩

theorem GraphFor.completeChain {c : Compiler} {authored : List String} {steps : List Document}
    {graph : Document} (h : GraphFor c authored steps graph) :
    ∃ start states, CompleteChain graph start states := by
  obtain ⟨sequence, haligned, hd, hne, rfl, hs⟩ := h.aligned
  have hunchained := haligned.unchained
  have hd' : (Fields.names (chain sequence)).Nodup := (names_chain sequence).symm ▸ hd
  cases sequence with
  | nil => exact absurd rfl hne
  | cons first rest =>
      obtain ⟨name, state⟩ := first
      refine ⟨name, chain ((name, state) :: rest), ?_, ?_, hd', ?_, leads_chain hunchained⟩
      · rw [graphOf, link_eq_chain hd]
        rfl
      · rw [names_chain]
        rfl
      · rw [names_chain]
        exact visits_chain (fun named hn => (hunchained named hn).1)
          fun named hn => Fields.get?_of_mem hd' hn

/-- Every graph of a compiled plan, at any depth, is a complete chain. -/
theorem graphIn_completeChain {c : Compiler} {plan definition graph : Document}
    (h : c.definition plan = .ok definition) (hg : GraphIn definition graph) :
    ∃ start states, CompleteChain graph start states := by
  obtain ⟨steps, _, _, rfl, -⟩ := compiles_of_definition h
  have hfor := graphFor_of_definition h
  obtain ⟨list, hp⟩ := hg.placed hfor
  exact (hp.graphFor hfor).completeChain

/-- The graph of a choice inside a branch is one of those. -/
theorem forkedGraph_completeChain :
    ({} : Compiler).definition (.list forkedPlan) = .ok forkedGraph ∧
      GraphIn forkedGraph checkGraph ∧
      ∃ start states, CompleteChain checkGraph start states := by
  have hd : ({} : Compiler).definition (.list forkedPlan) = .ok forkedGraph := rfl
  have hg : GraphIn forkedGraph checkGraph :=
    .nested .root List.mem_cons_self (List.mem_cons_of_mem _ List.mem_cons_self)
  exact ⟨hd, hg, graphIn_completeChain hd hg⟩

end StepGraph.Plan
