/-
Chained states in a row.

`link` stores states under their names one after the other, so a name that
occurs twice would put two states in one place.  As long as the names differ
nothing is overwritten, and the result is the row of states, each with the
field that says what follows it.
-/
import StepGraph.Proofs.Nesting

namespace StepGraph.Plan

/-- The states of a sequence in a row, each chained to the next. -/
def chain : List (String × State) → Fields Document
  | [] => []
  | [(name, state)] => [(name, .object (state.insert "End" (.bool true)))]
  | (name, state) :: (next, after) :: rest =>
      (name, .object (state.insert "Next" (.string next))) :: chain ((next, after) :: rest)

theorem linkInto_eq : ∀ (sequence : List (String × State)) (states : Fields Document),
    (Fields.names sequence).Nodup →
    (∀ name ∈ Fields.names sequence, name ∉ Fields.names states) →
    linkInto states sequence = states ++ chain sequence
  | [], states, _, _ => (List.append_nil states).symm
  | [(name, state)], states, _, hnew => by
      have hn : states.get? name = none :=
        Fields.get?_eq_none_iff.mpr (hnew name List.mem_cons_self)
      rw [linkInto, chain, Fields.insert_of_get?_none hn]
  | (name, state) :: (next, after) :: rest, states, hd, hnew => by
      obtain ⟨hne, hd'⟩ := List.nodup_cons.mp hd
      have hn : states.get? name = none :=
        Fields.get?_eq_none_iff.mpr (hnew name List.mem_cons_self)
      rw [linkInto, chain, Fields.insert_of_get?_none hn]
      rw [linkInto_eq ((next, after) :: rest) _ hd']
      · rw [List.append_assoc]
        rfl
      · intro other ho hm
        rw [Fields.names, List.map_append, List.mem_append] at hm
        rcases hm with hm | hm
        · exact hnew other (List.mem_cons_of_mem _ ho) hm
        · rw [List.mem_singleton.mp hm] at ho
          exact hne ho

/-- States with different names stand in the order of their sequence. -/
theorem link_eq_chain {sequence : List (String × State)}
    (hd : (Fields.names sequence).Nodup) : link sequence = chain sequence :=
  linkInto_eq sequence [] hd fun _ _ => List.not_mem_nil

/-- A chain begins with its first state, to which only what follows it is added. -/
theorem chain_cons (named : String × State) (rest : List (String × State)) :
    ∃ key value, (key = "Next" ∨ key = "End") ∧
      chain (named :: rest) = (named.1, .object (named.2.insert key value)) :: chain rest := by
  cases rest with
  | nil => exact ⟨"End", .bool true, .inr rfl, rfl⟩
  | cons next rest => exact ⟨"Next", .string next.1, .inl rfl, rfl⟩

theorem names_chain (sequence : List (String × State)) :
    Fields.names (chain sequence) = Fields.names sequence := by
  induction sequence with
  | nil => rfl
  | cons named rest ih =>
      obtain ⟨key, value, -, hc⟩ := chain_cons named rest
      rw [hc]
      exact congrArg (named.1 :: ·) ih

theorem mem_of_mem_chain {sequence : List (String × State)} {name : String}
    {document : Document} (h : (name, document) ∈ chain sequence) :
    ∃ state key value, (name, state) ∈ sequence ∧ (key = "Next" ∨ key = "End") ∧
      document = .object (state.insert key value) := by
  induction sequence with
  | nil => simp [chain] at h
  | cons named rest ih =>
      obtain ⟨key, value, hk, hc⟩ := chain_cons named rest
      rw [hc] at h
      rcases List.mem_cons.mp h with h | h
      · obtain ⟨rfl, rfl⟩ := Prod.mk.inj h
        exact ⟨named.2, key, value, List.mem_cons_self, hk, rfl⟩
      · obtain ⟨found, key, value, hf, hk, hd⟩ := ih h
        exact ⟨found, key, value, List.mem_cons_of_mem _ hf, hk, hd⟩

theorem mem_chain_of_mem {sequence : List (String × State)} {name : String} {state : State}
    (h : (name, state) ∈ sequence) :
    ∃ key value, (key = "Next" ∨ key = "End") ∧
      (name, .object (state.insert key value)) ∈ chain sequence := by
  induction sequence with
  | nil => simp at h
  | cons named rest ih =>
      obtain ⟨key, value, hk, hc⟩ := chain_cons named rest
      rw [hc]
      rcases List.mem_cons.mp h with rfl | h
      · exact ⟨key, value, hk, List.mem_cons_self⟩
      · obtain ⟨key, value, hk, hm⟩ := ih h
        exact ⟨key, value, hk, List.mem_cons_of_mem _ hm⟩

/-- What is collected from chained states, if it does not depend on what follows a state. -/
theorem chain_flatMap {β : Type} {sequence : List (String × State)}
    {f : String × Document → List β} {g : String × State → List β}
    (h : ∀ named ∈ sequence, ∀ key value, key = "Next" ∨ key = "End" →
      f (named.1, .object (named.2.insert key value)) = g named) :
    (chain sequence).flatMap f = sequence.flatMap g := by
  induction sequence with
  | nil => rfl
  | cons named rest ih =>
      obtain ⟨key, value, hk, hc⟩ := chain_cons named rest
      have htail := ih fun named hn => h named (List.mem_cons_of_mem _ hn)
      rw [hc, List.flatMap_cons, List.flatMap_cons, htail]
      rw [h named List.mem_cons_self key value hk]

/-! ## The graph of a sequence -/

/-- The graph that starts with the first state of a sequence. -/
def graphOf (sequence : List (String × State)) : Document :=
  .object
    [("StartAt", .string ((sequence.head?.map Prod.fst).getD "")),
     ("States", .object (link sequence))]

theorem graph_eq_ok {scope : Scope} {sequence : List (String × State)} {result : Document}
    (h : graph scope sequence = .ok result) : sequence ≠ [] ∧ result = graphOf sequence := by
  cases sequence with
  | nil => simp [graph] at h
  | cons first rest =>
      obtain ⟨name, state⟩ := first
      simp only [graph, Except.ok.injEq] at h
      exact ⟨List.cons_ne_nil _ _, h.symm⟩

@[simp] theorem statesOf_graphOf (sequence : List (String × State)) :
    statesOf (graphOf sequence) = link sequence := rfl

end StepGraph.Plan
