/-
The names that a compilation claims.

A run over a list of steps claims exactly the names of the states that it
makes, at all depths and in the order in which the states stand; and it never
claims a name twice.  So the states of one graph differ in name, and so do
all states of a definition.
-/
import StepGraph.Proofs.Compilation

namespace StepGraph.Plan

/-- The names of all states of a definition. -/
def stateNames (graph : Document) : List String := Fields.names (allStates graph)

/-- The names of all states that a sequence holds, those in its graphs included. -/
def sequenceNames (states : List (String × State)) : List String :=
  states.flatMap fun named => named.1 :: (subGraphs (.object named.2)).flatMap stateNames

theorem stateNames_eq (graph : Document) : stateNames graph =
    (statesOf graph).flatMap fun named => named.1 :: (subGraphs named.2).flatMap stateNames := by
  rw [stateNames, Fields.names, allStates_eq, flattened, List.map_flatMap]
  refine congrArg (List.flatMap · (statesOf graph)) (funext fun named => ?_)
  rw [List.map_cons, List.map_flatMap]
  rfl

theorem names_sublist_sequenceNames (states : List (String × State)) :
    List.Sublist (Fields.names states) (sequenceNames states) := by
  induction states with
  | nil => exact List.Sublist.refl _
  | cons named rest ih =>
      rw [sequenceNames, List.flatMap_cons, List.cons_append]
      exact (ih.trans (List.sublist_append_right _ _)).cons_cons _

theorem sequenceNames_append (states more : List (String × State)) :
    sequenceNames (states ++ more) = sequenceNames states ++ sequenceNames more :=
  List.flatMap_append

theorem allStates_graphOf {states : List (String × State)}
    (hd : (Fields.names states).Nodup) :
    allStates (graphOf states) = flattened (chain states) := by
  rw [allStates_eq, statesOf_graphOf, link_eq_chain hd]

/-- The graph of a sequence has the states of the sequence. -/
theorem stateNames_graphOf {states : List (String × State)}
    (hd : (Fields.names states).Nodup) : stateNames (graphOf states) = sequenceNames states := by
  rw [stateNames_eq, statesOf_graphOf, link_eq_chain hd]
  refine chain_flatMap fun named _ key value hk => ?_
  rw [subGraphs_chained value hk]

/-- What a run claims: one name after the other, each of them new. -/
structure Claims (names final : Names) (claimed : List String) : Prop where
  authored : final.authored = names.authored
  claimed : final.claimed = claimed.reverse ++ names.claimed
  nodup : final.claimed.Nodup

theorem Claims.refl {names : Names} (hn : names.claimed.Nodup) : Claims names names [] :=
  ⟨rfl, rfl, hn⟩

theorem Claims.trans {names inner final : Names} {first second : List String}
    (h : Claims names inner first) (h' : Claims inner final second) :
    Claims names final (first ++ second) := by
  refine ⟨h'.authored.trans h.authored, ?_, h'.nodup⟩
  rw [h'.claimed, h.claimed, List.reverse_append, List.append_assoc]

theorem Claims.add {names : Names} {name : String} (hn : names.claimed.Nodup)
    (hnew : name ∉ names.claimed) : Claims names (names.add name) [name] :=
  ⟨rfl, rfl, List.nodup_cons.mpr ⟨hnew, hn⟩⟩

theorem Claims.own_nodup {names final : Names} {claimed : List String}
    (h : Claims names final claimed) : claimed.Nodup := by
  have hn := h.nodup
  rw [h.claimed, List.nodup_append] at hn
  exact List.nodup_reverse.mp hn.1

theorem Compiler.inserted_claims {c : Compiler} {name : String} {entry : Document}
    {rest : List Document} {names behind : Names} {merge : List (String × State)}
    (hn : names.claimed.Nodup) (h : c.inserted name entry rest names = (merge, behind)) :
    Claims names behind (sequenceNames merge) := by
  rcases c.inserted_eq h with ⟨-, rfl, rfl⟩ | ⟨mergeName, -, rfl, rfl, hfree⟩
  · exact .refl hn
  · have hs : sequenceNames [(mergeName, c.mergeState)] = [mergeName] := by
      simp [sequenceNames, c.subGraphs_mergeState]
    rw [hs]
    exact .add hn (Names.taken_eq_false_iff.mp hfree).1

mutual

theorem Compiles.claims {c : Compiler} {names final : Names} {steps : List Document}
    {states : List (String × State)} (hn : names.claimed.Nodup) :
    Compiles c names steps states final → Claims names final (sequenceNames states)
  | .nil => .refl hn
  | .cons hchecked hall hof hins hrest => by
      have hadd := Claims.add hn hchecked.unclaimed
      have hsub := hall.claims hadd.nodup
      have hmerge := Compiler.inserted_claims hsub.nodup hins
      have htail := hrest.claims hmerge.nodup
      have hclaims := hadd.trans (hsub.trans (hmerge.trans htail))
      rw [List.cons_append, ← List.singleton_append, sequenceNames_append, sequenceNames_append]
      simpa [sequenceNames, hof.subGraphs_eq] using hclaims

theorem CompilesAll.claims {c : Compiler} {names final : Names} {lists : List (List Document)}
    {graphs : List Document} (hn : names.claimed.Nodup) :
    CompilesAll c names lists graphs final → Claims names final (graphs.flatMap stateNames)
  | .nil => .refl hn
  | .cons hfirst _ hrest => by
      have hclaims := hfirst.claims hn
      have hd := hclaims.own_nodup.sublist (names_sublist_sequenceNames _)
      rw [List.flatMap_cons, stateNames_graphOf hd]
      exact hclaims.trans (hrest.claims hclaims.nodup)

end

/-- The first step of a list claims its name, behind it the names in its graphs, and behind
these that of a merge state. -/
theorem step_claims {c : Compiler} {names after behind : Names} {name : String}
    {fields : Fields Document} {rest : List Document} {lists : List (List Document)}
    {graphs : List Document} {merge : List (String × State)} (hn : names.claimed.Nodup)
    (hchecked : Checked names name fields)
    (hall : CompilesAll c (names.add name) lists graphs after)
    (hins : c.inserted name (.object fields) rest after = (merge, behind)) :
    Claims names (names.add name) [name] ∧
      Claims names after ([name] ++ graphs.flatMap stateNames) ∧
      Claims names behind ([name] ++ graphs.flatMap stateNames ++ sequenceNames merge) := by
  have hadd := Claims.add hn hchecked.unclaimed
  have hafter := hadd.trans (hall.claims hadd.nodup)
  exact ⟨hadd, hafter, hafter.trans (Compiler.inserted_claims hafter.nodup hins)⟩

/-- The states of a sequence differ in name. -/
theorem Compiles.names_nodup {c : Compiler} {names final : Names} {steps : List Document}
    {states : List (String × State)} (h : Compiles c names steps states final)
    (hn : names.claimed.Nodup) : (Fields.names states).Nodup :=
  (h.claims hn).own_nodup.sublist (names_sublist_sequenceNames states)

/-- All states of a compiled plan differ in name. -/
theorem stateNames_nodup {c : Compiler} {plan definition : Document}
    (h : c.definition plan = .ok definition) : (stateNames definition).Nodup := by
  obtain ⟨steps, states, final, -, hc, -, rfl⟩ := compiles_of_definition h
  have hn : (Names.ofPlan steps).claimed.Nodup := List.nodup_nil
  rw [stateNames_graphOf (hc.names_nodup hn)]
  exact (hc.claims hn).own_nodup

end StepGraph.Plan
