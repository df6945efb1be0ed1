/-
Every fan-out is rejoined, by the merge states that are needed.

What runs behind a fan-out is a state of the merge type.  If the author put a
merge step there, it is the state of that step; otherwise it is an inserted
one, which has nothing but its type and what follows it.  An inserted state
stands nowhere else, so there are as many of them as there are fan-outs that
no merge step follows.
-/
import StepGraph.Proofs.CompleteChain
import StepGraph.Proofs.NamePartition

namespace StepGraph.Plan

/-- The entry at an index of a list is authored as a merge step. -/
def MergeAt (c : Compiler) (steps : List Document) (index : Nat) : Prop :=
  ∃ entry, steps[index]? = some entry ∧ entry.textAt? "Type" = some c.mergeType

/-- The entry at an index of a list is a fan-out of a name. -/
def FanOutAt (steps : List Document) (index : Nat) (name : String) : Prop :=
  ∃ fields : Fields Document, steps[index]? = some (.object fields) ∧
    Shape.of fields = .parallel ∧ fields.get? "Name" = some (.string name)

/-- A state with the merge type, what follows it, and nothing else. -/
def IsMergeState (c : Compiler) (state : Document) : Prop :=
  ∃ key value, (key = "Next" ∨ key = "End") ∧
    state = .object [("Type", .string c.mergeType), (key, value)]

/-- The fan-outs in all lists of a plan that no merge step follows. -/
def openFanOuts (c : Compiler) : List Document → List Document
  | [] => []
  | entry :: rest =>
      (if c.wantsMerge entry rest then [entry] else []) ++
        ((entryLists entry).attach.flatMap fun ⟨sub, hs⟩ =>
          have : sizeOf sub < sizeOf (entry :: rest) := sizeOf_lt_cons_of_mem_entryLists hs rest
          openFanOuts c sub) ++
        openFanOuts c rest
termination_by steps => sizeOf steps
decreasing_by
  · exact this
  · simp only [List.cons.sizeOf_spec]
    omega

/-- In each graph of a definition every fan-out is rejoined by the state behind it, and what was
inserted stands behind a fan-out that wants it. -/
structure Rejoins (c : Compiler) (plan : List Document) (definition : Document) : Prop where
  /-- Every list of the plan has its graph. -/
  filled : ∀ steps, ListIn plan steps → ∃ graph, Placed plan definition steps graph
  /-- Every graph is that of a list. -/
  placed : ∀ graph, GraphIn definition graph → ∃ steps, Placed plan definition steps graph
  /-- A fan-out leads to a state of the merge type: to that of the merge step behind it, or else
  to one that was inserted. -/
  joined : ∀ steps graph index fields, Placed plan definition steps graph →
    steps[index]? = some (.object fields) → Shape.of fields = .parallel →
    ∃ name state next sibling, Fields.get? fields "Name" = some (.string name) ∧
      (statesOf graph).get? name = some state ∧ Leads state (some next) ∧
      (statesOf graph).get? next = some sibling ∧
      sibling.textAt? "Type" = some c.mergeType ∧
      ((∃ entry, steps[index + 1]? = some entry ∧
          entry.textAt? "Type" = some c.mergeType ∧ entry.textAt? "Name" = some next) ∨
        (¬ MergeAt c steps (index + 1) ∧ ¬ Authored plan next ∧ IsMergeState c sibling))
  /-- A state of which nobody wrote the name stands behind that of one fan-out. -/
  inserted : ∀ steps graph i name state, Placed plan definition steps graph →
    (statesOf graph)[i]? = some (name, state) → ¬ Authored plan name →
    ∃ j fan before index, i = j + 1 ∧ (statesOf graph)[j]? = some (fan, before) ∧
      FanOutAt steps index fan ∧ ¬ MergeAt c steps (index + 1) ∧
      (∀ other, FanOutAt steps other fan → other = index) ∧ IsMergeState c state
  /-- There are as many of these as fan-outs that no merge step follows. -/
  count : ∃ inserted : List String, inserted.Nodup ∧
    (∀ name, name ∈ inserted ↔ name ∈ stateNames definition ∧ ¬ Authored plan name) ∧
    inserted.length = (openFanOuts c plan).length

/-! ## What follows in a list and in a chain -/

theorem mergeAt_cons {c : Compiler} {entry : Document} {rest : List Document} {index : Nat} :
    MergeAt c (entry :: rest) (index + 1) ↔ MergeAt c rest index := by
  simp only [MergeAt, List.getElem?_cons_succ]

theorem fanOutAt_cons {entry : Document} {rest : List Document} {index : Nat} {name : String} :
    FanOutAt (entry :: rest) (index + 1) name ↔ FanOutAt rest index name := by
  simp only [FanOutAt, List.getElem?_cons_succ]

theorem Compiler.wantsMerge_iff {c : Compiler} {fields : Fields Document}
    {rest : List Document} :
    c.wantsMerge (.object fields) rest = true ↔
      Shape.of fields = .parallel ∧ ¬ MergeAt c rest 0 := by
  have hmerge : MergeAt c rest 0 ↔ rest.head?.any (hasType c.mergeType) = true := by
    cases rest with
    | nil => simp [MergeAt]
    | cons entry rest => simp [MergeAt, hasType]
  rw [hmerge, wantsMerge]
  simp [isParallel]

theorem getElem?_chain {sequence : List (String × State)} {i : Nat} {name : String}
    {state : State} (h : sequence[i]? = some (name, state)) :
    ∃ key value, (key = "Next" ∨ key = "End") ∧
      (chain sequence)[i]? = some (name, .object (state.insert key value)) := by
  induction sequence generalizing i with
  | nil => simp at h
  | cons named rest ih =>
      obtain ⟨key, value, hk, hc⟩ := chain_cons named rest
      rw [hc]
      cases i with
      | zero =>
          obtain rfl := Option.some.inj h
          exact ⟨key, value, hk, rfl⟩
      | succ i => exact ih h

theorem getElem?_of_chain {sequence : List (String × State)} {i : Nat} {name : String}
    {document : Document} (h : (chain sequence)[i]? = some (name, document)) :
    ∃ state key value, sequence[i]? = some (name, state) ∧ (key = "Next" ∨ key = "End") ∧
      document = .object (state.insert key value) := by
  induction sequence generalizing i with
  | nil => simp [chain] at h
  | cons named rest ih =>
      obtain ⟨key, value, hk, hc⟩ := chain_cons named rest
      rw [hc] at h
      cases i with
      | zero =>
          obtain ⟨rfl, rfl⟩ := Prod.mk.inj (Option.some.inj h)
          exact ⟨named.2, key, value, rfl, hk, rfl⟩
      | succ i => exact ih h

/-- In a chain with different names a state leads to the one behind it. -/
theorem leads_of_getElem? {sequence : List (String × State)}
    (hd : (Fields.names sequence).Nodup)
    (hu : ∀ named ∈ sequence, named.2.get? "Next" = none ∧ named.2.get? "End" = none)
    {i : Nat} {name next : String} {state after : State}
    (hi : sequence[i]? = some (name, state)) (hn : sequence[i + 1]? = some (next, after)) :
    ∃ document key value, (chain sequence).get? name = some document ∧
      Leads document (some next) ∧ (key = "Next" ∨ key = "End") ∧
      (chain sequence).get? next = some (.object (after.insert key value)) := by
  obtain ⟨_, _, -, hstate⟩ := getElem?_chain hi
  obtain ⟨key, value, hk, hafter⟩ := getElem?_chain hn
  have hnames : (Fields.names (chain sequence)).Nodup := (names_chain sequence).symm ▸ hd
  have hleads := leads_chain hu i _ hstate
  rw [hafter] at hleads
  exact ⟨_, key, value, Fields.get?_of_mem hnames (List.mem_of_getElem? hstate), hleads, hk,
    Fields.get?_of_mem hnames (List.mem_of_getElem? hafter)⟩

/-! ## One level -/

section Level

variable {c : Compiler} {authored : List String} {steps : List Document}
  {states : List (String × State)}

/-- The state of a step has the type that the author gave it. -/
theorem StateFor.typeOf?_eq {fields : Fields Document} {name : String} {state : State}
    (h : StateFor c authored fields name state) {type : String}
    (ht : typeOf? fields = some type) : typeOf? state = some type := by
  obtain ⟨lists, graphs, hof⟩ := h.built
  rw [hof.typeOf?_eq]
  rw [Shape.of, ht]
  by_cases hp : type = "Parallel"
  · simp [hp]
  · by_cases hc : type = "Choice"
    · simp [hc]
    · simp [hp, hc]

theorem Aligned.head {entry : Document} (h : Aligned c authored (entry :: steps) states) :
    ∃ fields name state more, entry = .object fields ∧ StateFor c authored fields name state ∧
      states = (name, state) :: more := by
  cases h with
  | step hfor _ _ => exact ⟨_, _, _, _, rfl, hfor, rfl⟩
  | fanOut hfor _ _ _ => exact ⟨_, _, _, _, rfl, hfor, rfl⟩

/-- A fan-out that wants no merge state has a merge step behind it, and its state comes next. -/
theorem Aligned.head_merge {fields : Fields Document} (h : Aligned c authored steps states)
    (hs : Shape.of fields = .parallel) (hw : c.wantsMerge (.object fields) steps = false) :
    ∃ entry next after, steps[0]? = some entry ∧ entry.textAt? "Type" = some c.mergeType ∧
      entry.textAt? "Name" = some next ∧ typeOf? after = some c.mergeType ∧
      states[0]? = some (next, after) := by
  have hmerge : MergeAt c steps 0 := by
    by_contra hno
    rw [c.wantsMerge_iff.mpr ⟨hs, hno⟩] at hw
    cases hw
  obtain ⟨entry, he, ht⟩ := hmerge
  cases steps with
  | nil => simp at he
  | cons first rest =>
      obtain rfl := Option.some.inj he
      obtain ⟨fields, next, after, more, rfl, hnext, rfl⟩ := h.head
      exact ⟨_, next, after, rfl, ht, Document.textAt?_object hnext.named,
        hnext.typeOf?_eq ht, rfl⟩

/-- Behind the state of a fan-out stands that of the merge step behind it, or a merge state. -/
theorem Aligned.behind_fanOut (h : Aligned c authored steps states) {index : Nat}
    {fields : Fields Document} (hi : steps[index]? = some (.object fields))
    (hs : Shape.of fields = .parallel) :
    ∃ i name state next after, fields.get? "Name" = some (.string name) ∧
      states[i]? = some (name, state) ∧ states[i + 1]? = some (next, after) ∧
      ((∃ entry, steps[index + 1]? = some entry ∧ entry.textAt? "Type" = some c.mergeType ∧
          entry.textAt? "Name" = some next ∧ typeOf? after = some c.mergeType) ∨
        (¬ MergeAt c steps (index + 1) ∧ next ∉ authored ∧ after = c.mergeState)) := by
  induction h generalizing index with
  | nil => simp at hi
  | @step fields' rest name state states hfor hw hrest ih =>
      cases index with
      | zero =>
          obtain rfl := Document.object.inj (Option.some.inj hi)
          obtain ⟨entry, next, after, he, ht, hn, htype, hnext⟩ := hrest.head_merge hs hw
          exact ⟨0, name, state, next, after, hfor.named, rfl, hnext,
            .inl ⟨entry, he, ht, hn, htype⟩⟩
      | succ index =>
          obtain ⟨i, found⟩ := ih hi
          rw [mergeAt_cons]
          exact ⟨i + 1, found⟩
  | @fanOut fields' rest name merge state states hfor hw hnew _ ih =>
      cases index with
      | zero =>
          obtain rfl := Document.object.inj (Option.some.inj hi)
          rw [mergeAt_cons]
          exact ⟨0, name, state, merge, c.mergeState, hfor.named, rfl, rfl,
            .inr ⟨(c.wantsMerge_iff.mp hw).2, hnew, rfl⟩⟩
      | succ index =>
          obtain ⟨i, found⟩ := ih hi
          rw [mergeAt_cons]
          exact ⟨i + 2, found⟩

/-- A state is that of a step, or a merge state behind that of a fan-out. -/
theorem Aligned.at (h : Aligned c authored steps states) {i : Nat} {name : String}
    {state : State} (hi : states[i]? = some (name, state)) :
    (∃ entry ∈ steps, entry.textAt? "Name" = some name) ∨
      ∃ j fan before index, i = j + 1 ∧ states[j]? = some (fan, before) ∧
        FanOutAt steps index fan ∧ ¬ MergeAt c steps (index + 1) ∧ state = c.mergeState := by
  induction h generalizing i with
  | nil => simp at hi
  | @step fields rest own first states hfor _ _ ih =>
      cases i with
      | zero =>
          obtain ⟨rfl, rfl⟩ := Prod.mk.inj (Option.some.inj hi)
          exact .inl ⟨_, List.mem_cons_self, Document.textAt?_object hfor.named⟩
      | succ i =>
          rcases ih hi with ⟨entry, he, ht⟩ | ⟨j, fan, before, index, rfl, hj, hf, hm, rfl⟩
          · exact .inl ⟨entry, List.mem_cons_of_mem _ he, ht⟩
          · exact .inr ⟨j + 1, fan, before, index + 1, rfl, hj, fanOutAt_cons.mpr hf,
              mt mergeAt_cons.mp hm, rfl⟩
  | @fanOut fields rest own merge first states hfor hw _ _ ih =>
      obtain ⟨hs, hnone⟩ := c.wantsMerge_iff.mp hw
      cases i with
      | zero =>
          obtain ⟨rfl, rfl⟩ := Prod.mk.inj (Option.some.inj hi)
          exact .inl ⟨_, List.mem_cons_self, Document.textAt?_object hfor.named⟩
      | succ i =>
          cases i with
          | zero =>
              obtain ⟨rfl, rfl⟩ := Prod.mk.inj (Option.some.inj hi)
              exact .inr ⟨0, own, first, 0, rfl, rfl, ⟨fields, rfl, hs, hfor.named⟩,
                mt mergeAt_cons.mp hnone, rfl⟩
          | succ i =>
              rcases ih hi with ⟨entry, he, ht⟩ | ⟨j, fan, before, index, rfl, hj, hf, hm, rfl⟩
              · exact .inl ⟨entry, List.mem_cons_of_mem _ he, ht⟩
              · exact .inr ⟨j + 2, fan, before, index + 1, rfl, hj, fanOutAt_cons.mpr hf,
                  mt mergeAt_cons.mp hm, rfl⟩

end Level

/-- Where no name stands twice in a list, a name tells the index of a step. -/
theorem index_eq_of_textAt? {steps : List Document} (hd : (authoredNames steps).Nodup)
    {i j : Nat} {entry other : Document} {name : String} (hi : steps[i]? = some entry)
    (hj : steps[j]? = some other) (he : entry.textAt? "Name" = some name)
    (ho : other.textAt? "Name" = some name) : i = j := by
  -- the names collected from two entries have none in common
  rw [authoredNames_eq, List.nodup_flatMap] at hd
  have hapart := List.pairwise_iff_getElem.mp hd.2
  have hne := mem_entryNames_of_textAt? he
  have hno := mem_entryNames_of_textAt? ho
  obtain ⟨hi', rfl⟩ := List.getElem?_eq_some_iff.mp hi
  obtain ⟨hj', rfl⟩ := List.getElem?_eq_some_iff.mp hj
  rcases Nat.lt_trichotomy i j with hlt | heq | hlt
  · exact absurd hno (hapart i j hi' hj' hlt hne)
  · exact heq
  · exact absurd hne (hapart j i hj' hi' hlt hno)

theorem Compiler.isMergeState (c : Compiler) {key : String} (value : Document)
    (hk : key = "Next" ∨ key = "End") :
    IsMergeState c (.object (c.mergeState.insert key value)) := by
  refine ⟨key, value, hk, ?_⟩
  rcases hk with rfl | rfl
  · rfl
  · rfl

/-! ## Counting -/

theorem openFanOuts_cons (c : Compiler) (entry : Document) (rest : List Document) :
    openFanOuts c (entry :: rest) =
      (if c.wantsMerge entry rest then [entry] else []) ++
        (entryLists entry).flatMap (openFanOuts c) ++ openFanOuts c rest := by
  rw [openFanOuts]
  simp only [List.flatMap_subtype, List.unattach_attach]

theorem Compiler.length_inserted {c : Compiler} {name : String} {entry : Document}
    {rest : List Document} {names behind : Names} {merge : List (String × State)}
    (h : c.inserted name entry rest names = (merge, behind)) :
    (sequenceNames merge).length =
      (if c.wantsMerge entry rest then [entry] else []).length := by
  rcases c.inserted_eq h with ⟨hw, rfl, -⟩ | ⟨mergeName, hw, rfl, -, -⟩
  · rw [hw]
    rfl
  · rw [hw]
    simp [sequenceNames, c.subGraphs_mergeState]

theorem sequenceNames_of_stateOf (name : String) {fields : Fields Document}
    {lists : List (List Document)} {graphs : List Document} {state : State}
    (h : StateOf fields lists graphs state) :
    sequenceNames [(name, state)] = name :: graphs.flatMap stateNames := by
  rw [sequenceNames, List.flatMap_singleton, h.subGraphs_eq]

mutual

/-- A list has as many states at all depths as it has steps and open fan-outs. -/
theorem Compiles.length_sequenceNames {c : Compiler} {names final : Names}
    {steps : List Document} {states : List (String × State)} (hn : names.claimed.Nodup) :
    Compiles c names steps states final →
    (sequenceNames states).length =
      (authoredNames steps).length + (openFanOuts c steps).length
  | .nil => by
      rw [openFanOuts]
      rfl
  | @Compiles.cons _ _ _ _ _ name _ _ _ _ _ _ _ hchecked hall hof hins hrest => by
      obtain ⟨hadd, -, hmerge⟩ := step_claims hn hchecked hall hins
      have hown := hall.length_stateNames hadd.nodup
      have hbehind := hrest.length_sequenceNames hmerge.nodup
      have hinserted := c.length_inserted hins
      rw [authoredNames, entryNames_object, ownNames_of_named hchecked.named, openFanOuts_cons,
        entryLists, hof.subLists_eq]
      rw [List.cons_append, ← List.singleton_append, sequenceNames_append, sequenceNames_append]
      -- beside the own state there are those in its graphs, a merge state, and those behind
      have hstep := congrArg List.length (sequenceNames_of_stateOf name hof)
      simp only [List.length_append, List.length_cons, List.length_nil] at hstep ⊢
      omega

theorem CompilesAll.length_stateNames {c : Compiler} {names final : Names}
    {lists : List (List Document)} {graphs : List Document} (hn : names.claimed.Nodup) :
    CompilesAll c names lists graphs final →
    (graphs.flatMap stateNames).length =
      (lists.flatMap authoredNames).length + (lists.flatMap (openFanOuts c)).length
  | .nil => rfl
  | .cons hfirst _ hrest => by
      have hclaims := hfirst.claims hn
      have hone := hfirst.length_sequenceNames hn
      have hothers := hrest.length_stateNames hclaims.nodup
      rw [List.flatMap_cons, List.flatMap_cons, stateNames_graphOf (hfirst.names_nodup hn)]
      rw [List.flatMap_cons]
      simp only [List.length_append]
      omega

end

/-! ## All graphs -/

section Definition

variable {c : Compiler} {authored : List String} {plan steps : List Document}
  {definition graph : Document}

theorem Placed.joined (h : GraphFor c (authoredNames plan) plan definition)
    (hp : Placed plan definition steps graph) {index : Nat} {fields : Fields Document}
    (hi : steps[index]? = some (.object fields)) (hs : Shape.of fields = .parallel) :
    ∃ name state next sibling, Fields.get? fields "Name" = some (.string name) ∧
      (statesOf graph).get? name = some state ∧ Leads state (some next) ∧
      (statesOf graph).get? next = some sibling ∧
      sibling.textAt? "Type" = some c.mergeType ∧
      ((∃ entry, steps[index + 1]? = some entry ∧
          entry.textAt? "Type" = some c.mergeType ∧ entry.textAt? "Name" = some next) ∨
        (¬ MergeAt c steps (index + 1) ∧ ¬ Authored plan next ∧ IsMergeState c sibling)) := by
  obtain ⟨states, haligned, hd, -, -, hstates⟩ := (hp.graphFor h).aligned
  rw [hstates]
  obtain ⟨i, name, state, next, after, hname, hstate, hafter, hbehind⟩ :=
    haligned.behind_fanOut hi hs
  obtain ⟨document, key, value, hget, hleads, hk, hnext⟩ :=
    leads_of_getElem? hd haligned.unchained hstate hafter
  refine ⟨name, document, next, _, hname, hget, hleads, hnext, ?_, ?_⟩
  · rw [textAt?_chained value hk]
    rcases hbehind with ⟨-, -, -, -, htype⟩ | ⟨-, -, rfl⟩
    · exact htype
    · rfl
  · rcases hbehind with ⟨entry, he, ht, hn, -⟩ | ⟨hnone, hnew, rfl⟩
    · exact .inl ⟨entry, he, ht, hn⟩
    · exact .inr ⟨hnone, mt mem_authoredNames_iff.mpr hnew, c.isMergeState value hk⟩

theorem Placed.inserted (h : GraphFor c (authoredNames plan) plan definition)
    (hp : Placed plan definition steps graph) {i : Nat} {name : String} {state : Document}
    (hi : (statesOf graph)[i]? = some (name, state)) (hnew : ¬ Authored plan name) :
    ∃ j fan before index, i = j + 1 ∧ (statesOf graph)[j]? = some (fan, before) ∧
      FanOutAt steps index fan ∧ ¬ MergeAt c steps (index + 1) ∧
      (∀ other, FanOutAt steps other fan → other = index) ∧ IsMergeState c state := by
  have hgraph := hp.graphFor h
  have hnames := hgraph.authoredNames_nodup
  obtain ⟨states, haligned, -, -, -, hstates⟩ := hgraph.aligned
  rw [hstates] at hi ⊢
  obtain ⟨own, key, value, hown, hk, rfl⟩ := getElem?_of_chain hi
  rcases haligned.at hown with ⟨entry, he, ht⟩ | ⟨j, fan, before, index, rfl, hj, hf, hm, rfl⟩
  · exact absurd ⟨steps, entry, hp.listIn, he, ht⟩ hnew
  · obtain ⟨key', value', -, hbefore⟩ := getElem?_chain hj
    refine ⟨j, fan, _, index, rfl, hbefore, hf, hm, ?_, c.isMergeState value hk⟩
    rintro other ⟨fields, ho, -, hname⟩
    obtain ⟨fields', hindex, -, hname'⟩ := hf
    exact index_eq_of_textAt? hnames ho hindex (Document.textAt?_object hname)
      (Document.textAt?_object hname')

end Definition

/-- What is inserted into a plan is one state for each fan-out that no merge step follows. -/
theorem exists_inserted {c : Compiler} {plan : List Document} {definition : Document}
    (h : c.definition (.list plan) = .ok definition) :
    ∃ inserted : List String, inserted.Nodup ∧
      (∀ name, name ∈ inserted ↔ name ∈ stateNames definition ∧ ¬ Authored plan name) ∧
      inserted.length = (openFanOuts c plan).length := by
  have hdistinct := stateNames_nodup h
  obtain ⟨steps, states, final, hs, hc, -, rfl⟩ := compiles_of_definition h
  obtain rfl : plan = steps := Document.list.inj hs
  have hn : (Names.ofPlan plan).claimed.Nodup := List.nodup_nil
  have hlength := hc.length_sequenceNames hn
  obtain ⟨inserted, hp⟩ := (hc.authoredNames_sublist hn).exists_perm_append
  rw [← stateNames_graphOf (hc.names_nodup hn)] at hp hlength
  obtain ⟨-, hnodup, hdisjoint⟩ := List.nodup_append.mp (hp.nodup_iff.mp hdistinct)
  refine ⟨inserted, hnodup, ?_, ?_⟩
  · intro name
    rw [hp.mem_iff, List.mem_append, ← mem_authoredNames_iff]
    have hnew : name ∈ inserted → name ∉ authoredNames plan := fun hi ha =>
      hdisjoint name ha name hi rfl
    tauto
  · have htotal := hp.length_eq
    rw [List.length_append] at htotal
    omega

/-- In a compiled plan every fan-out is rejoined, and only the merge states that this needs are
inserted. -/
theorem definition_rejoins {c : Compiler} {plan : List Document} {definition : Document}
    (h : c.definition (.list plan) = .ok definition) : Rejoins c plan definition := by
  have hfor := graphFor_of_definition h
  refine ⟨?_, ?_, ?_, ?_, exists_inserted h⟩
  · intro steps hl
    exact hl.placed hfor
  · intro graph hg
    exact hg.placed hfor
  · intro steps graph index fields hp hi hs
    exact hp.joined hfor hi hs
  · intro steps graph i name state hp hi hnew
    exact hp.inserted hfor hi hnew

/-- The fan-out of `forkedPlan` is rejoined by an inserted state. -/
theorem forkedGraph_rejoins :
    ({} : Compiler).definition (.list forkedPlan) = .ok forkedGraph ∧
      Rejoins {} forkedPlan forkedGraph :=
  ⟨rfl, definition_rejoins rfl⟩

end StepGraph.Plan
