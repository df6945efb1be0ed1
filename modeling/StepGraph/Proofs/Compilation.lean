/-
What a successful compilation is.

`Compiles c names steps states final` says, without scopes, positions or
faults, how the compiler gets from a list of steps to a sequence of states,
and from the names at hand to those behind the list.  There is one rule for a
step with what follows it, and one for each further list in a step.  All that
is proved about graphs that the compiler makes is an induction over these
rules; `compiles_of_definition` leads there.
-/
import StepGraph.Proofs.FreshNames
import StepGraph.Proofs.Linking
import StepGraph.Proofs.Success

namespace StepGraph.Plan

/-- The names with one more that is claimed. -/
def Names.add (names : Names) (name : String) : Names :=
  { names with claimed := name :: names.claimed }

/-- A step that passed all checks: it has a name that is not claimed yet, leaves it to its
place what follows it, and does not carry the fields of both nesting shapes. -/
structure Checked (names : Names) (name : String) (fields : Fields Document) : Prop where
  named : fields.get? "Name" = some (.string name)
  nonempty : name ≠ ""
  unclaimed : name ∉ names.claimed
  noNext : fields.get? "Next" = none
  noEnd : fields.get? "End" = none
  noConflict : conflicts fields = false

/-- The state of a step, given the lists that its shape compiles and their graphs. -/
inductive StateOf (fields : Fields Document) : List (List Document) → List Document → State → Prop
  | plain : Shape.of fields = .plain → StateOf fields [] [] (fields.erase "Name")
  | parallel {lists : List (List Document)} {graphs : List Document} :
      Shape.of fields = .parallel →
      fields.get? "Branches" = some (.list (lists.map .list)) → lists ≠ [] →
      StateOf fields lists graphs
        (((fields.erase "Name").replace "Branches" (.list graphs)).insert "Type"
          (.string "Parallel"))
  | choice {yes : List Document} {graph : Document} :
      Shape.of fields = .choice →
      fields.get? "IsTrue" = some (.list yes) → fields.get? "IsFalse" = none →
      StateOf fields [yes] [graph]
        (((fields.erase "Name").replace "IsTrue" graph).insert "Type" (.string "Choice"))
  | choiceBoth {yes no : List Document} {graph other : Document} :
      Shape.of fields = .choice →
      fields.get? "IsTrue" = some (.list yes) → fields.get? "IsFalse" = some (.list no) →
      StateOf fields [yes, no] [graph, other]
        ((((fields.erase "Name").replace "IsTrue" graph).replace "IsFalse" other).insert "Type"
          (.string "Choice"))

mutual

/-- A list of steps compiles to a sequence of states. -/
inductive Compiles (c : Compiler) :
    Names → List Document → List (String × State) → Names → Prop
  | nil {names : Names} : Compiles c names [] [] names
  | cons {names after behind final : Names} {name : String} {fields : Fields Document}
      {rest : List Document} {lists : List (List Document)} {graphs : List Document}
      {state : State} {merge states : List (String × State)} :
      Checked names name fields →
      CompilesAll c (names.add name) lists graphs after →
      StateOf fields lists graphs state →
      c.inserted name (.object fields) rest after = (merge, behind) →
      Compiles c behind rest states final →
      Compiles c names (.object fields :: rest) ((name, state) :: merge ++ states) final

/-- Lists of steps, none of them empty, compile to graphs one after the other. -/
inductive CompilesAll (c : Compiler) :
    Names → List (List Document) → List Document → Names → Prop
  | nil {names : Names} : CompilesAll c names [] [] names
  | cons {names after final : Names} {steps : List Document} {states : List (String × State)}
      {lists : List (List Document)} {graphs : List Document} :
      Compiles c names steps states after → states ≠ [] →
      CompilesAll c after lists graphs final →
      CompilesAll c names (steps :: lists) (graphOf states :: graphs) final

end

/-! ## What can be read off the state of a step -/

/-- A field that no shape touches is that of the step. -/
theorem StateOf.get?_eq {fields : Fields Document} {lists : List (List Document)}
    {graphs : List Document} {state : State} (h : StateOf fields lists graphs state)
    {key : String} (hk : key ∉ ["Name", "Type", "Branches", "IsTrue", "IsFalse"]) :
    state.get? key = fields.get? key := by
  simp only [List.mem_cons, List.not_mem_nil, or_false, not_or] at hk
  obtain ⟨hn, ht, hb, hy, hf⟩ := hk
  cases h with
  | plain => rw [Fields.get?_erase_of_ne _ (Ne.symm hn)]
  | parallel =>
      rw [Fields.get?_insert_of_ne _ _ (Ne.symm ht), Fields.get?_replace_of_ne _ _ (Ne.symm hb),
        Fields.get?_erase_of_ne _ (Ne.symm hn)]
  | choice =>
      rw [Fields.get?_insert_of_ne _ _ (Ne.symm ht), Fields.get?_replace_of_ne _ _ (Ne.symm hy),
        Fields.get?_erase_of_ne _ (Ne.symm hn)]
  | choiceBoth =>
      rw [Fields.get?_insert_of_ne _ _ (Ne.symm ht), Fields.get?_replace_of_ne _ _ (Ne.symm hf),
        Fields.get?_replace_of_ne _ _ (Ne.symm hy), Fields.get?_erase_of_ne _ (Ne.symm hn)]

/-- The lists are those that the step's shape compiles. -/
theorem StateOf.subLists_eq {fields : Fields Document} {lists : List (List Document)}
    {graphs : List Document} {state : State} (h : StateOf fields lists graphs state) :
    subLists fields = lists := by
  cases h with
  | plain hs => rw [subLists, hs]
  | parallel hs hb _ =>
      rw [subLists, hs]
      simp [listAt?, hb, Document.items?, List.filterMap_map, Function.comp_def]
  | choice hs hy hf => simp [subLists, hs, listAt?, hy, hf, Document.items?]
  | choiceBoth hs hy hf => simp [subLists, hs, listAt?, hy, hf, Document.items?]

/-- The type of a state: that of a plain step, or the one that names its shape. -/
theorem StateOf.typeOf?_eq {fields : Fields Document} {lists : List (List Document)}
    {graphs : List Document} {state : State} (h : StateOf fields lists graphs state) :
    typeOf? state =
      match Shape.of fields with
      | .plain => typeOf? fields
      | .parallel => some "Parallel"
      | .choice => some "Choice" := by
  cases h with
  | plain hs => rw [hs, typeOf?, typeOf?, Fields.get?_erase_of_ne _ (by decide)]
  | parallel hs => rw [hs, typeOf?, Fields.get?_insert_self]; rfl
  | choice hs => rw [hs, typeOf?, Fields.get?_insert_self]; rfl
  | choiceBoth hs => rw [hs, typeOf?, Fields.get?_insert_self]; rfl

theorem Shape.of_eq_plain {fields : Fields Document} (h : Shape.of fields = .plain) :
    typeOf? fields ≠ some "Parallel" ∧ typeOf? fields ≠ some "Choice" := by
  unfold Shape.of at h
  constructor
  · intro ht
    simp [ht] at h
  · intro ht
    simp [ht] at h

/-- The graphs in the state are those of the lists. -/
theorem StateOf.subGraphs_eq {fields : Fields Document} {lists : List (List Document)}
    {graphs : List Document} {state : State} (h : StateOf fields lists graphs state) :
    subGraphs (.object state) = graphs := by
  have ht : (Document.object state).textAt? "Type" = typeOf? state := rfl
  rw [subGraphs, ht, h.typeOf?_eq]
  cases h with
  | plain hs =>
      obtain ⟨hp, hc⟩ := Shape.of_eq_plain hs
      rw [hs]
      cases hty : typeOf? fields with
      | none => rfl
      | some type => simp_all
  | parallel hs hb _ =>
      have hb' : (((fields.erase "Name").replace "Branches" (.list graphs)).insert "Type"
          (.string "Parallel")).get? "Branches" = some (.list graphs) := by simp [hb]
      simp [hs, Document.field?, hb', Document.items?]
  | @choice _ graph hs hy hf =>
      have hy' : (((fields.erase "Name").replace "IsTrue" graph).insert "Type"
          (.string "Choice")).get? "IsTrue" = some graph := by simp [hy]
      have hf' : (((fields.erase "Name").replace "IsTrue" graph).insert "Type"
          (.string "Choice")).get? "IsFalse" = none := by simp [hf]
      simp [hs, Document.field?, hy', hf']
  | @choiceBoth _ _ graph other hs hy hf =>
      have hy' : ((((fields.erase "Name").replace "IsTrue" graph).replace "IsFalse" other).insert
          "Type" (.string "Choice")).get? "IsTrue" = some graph := by simp [hy]
      have hf' : ((((fields.erase "Name").replace "IsTrue" graph).replace "IsFalse" other).insert
          "Type" (.string "Choice")).get? "IsFalse" = some other := by simp [hf]
      simp [hs, Document.field?, hy', hf']

/-- Whether a merge state stands between a step and the entries behind it: behind a fan-out
that no merge step follows. -/
def Compiler.wantsMerge (c : Compiler) (entry : Document) (rest : List Document) : Bool :=
  isParallel entry && !(rest.head?.any (hasType c.mergeType))

/-- The fields of an inserted state. -/
def Compiler.mergeState (c : Compiler) : State := [("Type", .string c.mergeType)]

theorem Compiler.inserted_eq {c : Compiler} {name : String} {entry : Document}
    {rest : List Document} {names behind : Names} {merge : List (String × State)}
    (h : c.inserted name entry rest names = (merge, behind)) :
    (c.wantsMerge entry rest = false ∧ merge = [] ∧ behind = names) ∨
    ∃ mergeName, c.wantsMerge entry rest = true ∧ merge = [(mergeName, c.mergeState)] ∧
      behind = names.add mergeName ∧ names.taken mergeName = false := by
  unfold Compiler.inserted at h
  split at h
  · rename_i hw
    simp only [Names.claimFresh, Prod.mk.injEq] at h
    exact .inr ⟨_, hw, h.1.symm, h.2.symm, names.taken_fresh _⟩
  · rename_i hw
    simp only [Prod.mk.injEq] at h
    exact .inl ⟨Bool.eq_false_iff.mpr hw, h.1.symm, h.2.symm⟩

theorem Compiler.subGraphs_mergeState (c : Compiler) :
    subGraphs (.object c.mergeState) = [] := by
  unfold subGraphs
  split
  · split
    · rfl
    · split
      · rfl
      · rfl
  · rfl

/-- What follows a state changes no other field of it. -/
theorem get?_chained {state : State} {key other : String} (value : Document)
    (hk : key = "Next" ∨ key = "End") (ho : other ∉ ["Next", "End"]) :
    (state.insert key value).get? other = state.get? other := by
  refine Fields.get?_insert_of_ne _ _ ?_
  rintro rfl
  exact ho (by simpa using hk)

/-- What follows a state changes nothing about its type. -/
theorem textAt?_chained {state : State} {key : String} (value : Document)
    (hk : key = "Next" ∨ key = "End") :
    (Document.object (state.insert key value)).textAt? "Type" =
      (Document.object state).textAt? "Type" := by
  have ht : (state.insert key value).get? "Type" = state.get? "Type" :=
    get?_chained value hk (by decide)
  simp only [Document.textAt?, Document.field?, ht]

/-- What follows a state changes nothing about the graphs in it. -/
theorem subGraphs_chained {state : State} {key : String} (value : Document)
    (hk : key = "Next" ∨ key = "End") :
    subGraphs (.object (state.insert key value)) = subGraphs (.object state) := by
  have hb : (state.insert key value).get? "Branches" = state.get? "Branches" :=
    get?_chained value hk (by decide)
  have hy : (state.insert key value).get? "IsTrue" = state.get? "IsTrue" :=
    get?_chained value hk (by decide)
  have hn : (state.insert key value).get? "IsFalse" = state.get? "IsFalse" :=
    get?_chained value hk (by decide)
  simp only [subGraphs, textAt?_chained value hk, Document.field?, hb, hy, hn]

/-! ## The checks of an entry -/

theorem stepName_eq_ok {scope : Scope} {index : Nat} {after : Option String}
    {fields : Fields Document} {name : String}
    (h : stepName scope index after fields = .ok name) :
    fields.get? "Name" = some (.string name) ∧ name ≠ "" := by
  unfold stepName at h
  split at h
  · simp at h
  · rename_i text hname
    split at h
    · simp at h
    · rename_i hne
      simp only [Except.ok.injEq] at h
      subst h
      exact ⟨hname, hne⟩
  · simp at h

theorem claim_eq_ok {names final : Names} {name : String}
    (h : names.claim name = .ok final) : name ∉ names.claimed ∧ final = names.add name := by
  unfold Names.claim at h
  split at h
  · simp at h
  · rename_i hn
    simp only [Except.ok.injEq] at h
    exact ⟨by simpa using hn, h.symm⟩

theorem checkChain_eq_ok {name : String} {fields : Fields Document}
    (h : checkChain name fields = .ok ()) :
    fields.get? "Next" = none ∧ fields.get? "End" = none := by
  unfold checkChain at h
  split at h
  · simp at h
  · rename_i hn
    split at h
    · simp at h
    · rename_i he
      exact ⟨Fields.has_eq_false.mp (by simpa using hn), Fields.has_eq_false.mp (by simpa using he)⟩

theorem checkShape_eq_ok {name : String} {fields : Fields Document}
    (h : checkShape name fields = .ok ()) : conflicts fields = false := by
  unfold checkShape at h
  split at h
  · simp at h
  · rename_i hc
    simpa using hc

theorem checkEntry_eq_ok {scope : Scope} {index : Nat} {after : Option String}
    {names final : Names} {entry : Document} {name : String}
    (h : checkEntry scope index after names entry = .ok (name, final)) :
    ∃ fields, entry = .object fields ∧ Checked names name fields ∧ final = names.add name ∧
      checkShape name fields = .ok () := by
  cases entry with
  | object fields =>
      simp only [checkEntry_object, bind_eq_ok, pure_eq_ok, Prod.mk.injEq] at h
      obtain ⟨name', hname, names', hclaim, ⟨⟩, hchain, ⟨⟩, hshape, rfl, rfl⟩ := h
      obtain ⟨hnamed, hne⟩ := stepName_eq_ok hname
      obtain ⟨hnew, hadd⟩ := claim_eq_ok hclaim
      obtain ⟨hnext, hend⟩ := checkChain_eq_ok hchain
      exact ⟨fields, rfl, ⟨hnamed, hne, hnew, hnext, hend, checkShape_eq_ok hshape⟩, hadd, hshape⟩
  | _ => simp [checkEntry, recordEntry] at h

/-! ## Where the lists of a step are found -/

theorem Compiler.slot_eq (c : Compiler) (name : String) (slot : Slot) (names : Names)
    (fields : Fields Document) :
    c.slot name slot names fields =
      match fields.get? slot.text with
      | none => .ok (none, names)
      | some value => do
          let (compiled, names) ← c.subPlan name slot names value
          return (some compiled, names) := by
  induction fields with
  | nil => simp [Compiler.slot_nil]
  | cons field rest ih =>
      obtain ⟨key, value⟩ := field
      rw [Compiler.slot_cons, Fields.get?_cons]
      by_cases hk : key = slot.text
      · rw [if_pos hk, if_pos hk]
      · rw [if_neg hk, if_neg hk]
        exact ih

theorem Compiler.branches_eq (c : Compiler) (name : String) (names : Names)
    (fields : Fields Document) :
    c.branches name names fields =
      match fields.get? "Branches" with
      | none => .ok (none, names)
      | some value => do
          let (compiled, names) ← c.branchList name names value
          return (some compiled, names) := by
  induction fields with
  | nil => simp [Compiler.branches_nil]
  | cons field rest ih =>
      obtain ⟨key, value⟩ := field
      have ht : Slot.branches.text = "Branches" := rfl
      rw [Compiler.branches_cons, Fields.get?_cons, ht]
      by_cases hk : key = "Branches"
      · rw [if_pos hk, if_pos hk]
      · rw [if_neg hk, if_neg hk]
        exact ih

theorem checkSlot_eq_ok {name : String} {slot : Slot} {fields : Fields Document}
    (h : checkSlot name slot fields = .ok ()) :
    ∃ items, fields.get? slot.text = some (.list items) := by
  unfold checkSlot at h
  split at h
  · rename_i items hi
    exact ⟨items, hi⟩
  · simp at h
  · simp at h

/-- A fan-out that passed its checks holds a list in `Branches`. -/
theorem branches_of_checkShape {name : String} {fields : Fields Document}
    (hs : Shape.of fields = .parallel) (h : checkShape name fields = .ok ()) :
    ∃ items, fields.get? "Branches" = some (.list items) := by
  rw [checkShape, checkShape_eq_ok h, if_neg Bool.false_ne_true, hs] at h
  exact checkSlot_eq_ok h

/-- A choice that passed its checks holds a list in `IsTrue`, and one in `IsFalse` if that
is there. -/
theorem slots_of_checkShape {name : String} {fields : Fields Document}
    (hs : Shape.of fields = .choice) (h : checkShape name fields = .ok ()) :
    (∃ items, fields.get? "IsTrue" = some (.list items)) ∧
      (fields.get? "IsFalse" = none ∨ ∃ items, fields.get? "IsFalse" = some (.list items)) := by
  rw [checkShape, checkShape_eq_ok h, if_neg Bool.false_ne_true, hs] at h
  simp only at h
  split at h
  · obtain ⟨⟨⟩, htrue, hfalse⟩ := bind_eq_ok.mp h
    refine ⟨checkSlot_eq_ok htrue, ?_⟩
    split at hfalse
    · exact .inr (checkSlot_eq_ok hfalse)
    · rename_i hn
      exact .inl (Fields.has_eq_false.mp (by simpa using hn))
  · simp at h

/-! ## Every result of the compiler follows the rules -/

mutual

theorem compiles_of_sequence {c : Compiler} : ∀ {steps : List Document} {scope : Scope}
    {index : Nat} {after : Option String} {names final : Names} {states : List (String × State)},
    c.sequence scope index after names steps = .ok (states, final) →
    Compiles c names steps states final
  | [], _, _, _, _, _, _, h => by
      simp only [Compiler.sequence_nil, Except.ok.injEq, Prod.mk.injEq] at h
      obtain ⟨rfl, rfl⟩ := h
      exact .nil
  | entry :: rest, scope, index, after, names, final, states, h => by
      simp only [Compiler.sequence_cons, bind_eq_ok, pure_eq_ok, Prod.mk.injEq] at h
      obtain ⟨⟨name, added⟩, hcheck, ⟨state, inner⟩, hstate, ⟨more, last⟩, hrest, rfl, rfl⟩ := h
      obtain ⟨fields, rfl, hchecked, rfl, hshape⟩ := checkEntry_eq_ok hcheck
      obtain ⟨lists, graphs, hall, hof⟩ := stateOf_of_state hshape hstate
      exact .cons hchecked hall hof rfl (compiles_of_sequence hrest)
termination_by steps => sizeOf steps

theorem stateOf_of_state {c : Compiler} {name : String} {names final : Names}
    {fields : Fields Document} {state : State}
    (hshape : checkShape name fields = .ok ())
    (h : c.state name names (.object fields) = .ok (state, final)) :
    ∃ lists graphs, CompilesAll c names lists graphs final ∧
      StateOf fields lists graphs state := by
  rw [Compiler.state_object] at h
  cases hs : Shape.of fields with
  | plain =>
      simp only [hs, Except.ok.injEq, Prod.mk.injEq] at h
      obtain ⟨rfl, rfl⟩ := h
      exact ⟨[], [], .nil, .plain hs⟩
  | parallel =>
      obtain ⟨branches, hb⟩ := branches_of_checkShape hs hshape
      simp only [hs, Compiler.branches_eq, hb, bind_eq_ok, pure_eq_ok, Prod.mk.injEq] at h
      obtain ⟨⟨compiled, last⟩, ⟨⟨value, inner⟩, hlist, rfl, rfl⟩, rfl, rfl⟩ := h
      cases branches with
      | nil => simp [Compiler.branchList_nil] at hlist
      | cons first others =>
          simp only [Compiler.branchList_cons, bind_eq_ok, pure_eq_ok, Prod.mk.injEq] at hlist
          obtain ⟨⟨graphs, last⟩, heach, rfl, rfl⟩ := hlist
          have := sizeOf_lt_of_get?_list hb
          obtain ⟨lists, hlists, hall⟩ := compilesAll_of_eachBranch heach
          have hne : lists ≠ [] := by
            rintro rfl
            simp at hlists
          exact ⟨lists, graphs, hall, .parallel hs (hlists ▸ hb) hne⟩
  | choice =>
      obtain ⟨⟨yes, ht⟩, hf⟩ := slots_of_checkShape hs hshape
      have : 1 + sizeOf yes < sizeOf fields := by simpa using Fields.sizeOf_lt_of_get? ht
      rcases hf with hf | ⟨no, hf⟩
      · simp only [hs, Compiler.slot_eq, Slot.text, ht, hf, bind_eq_ok, pure_eq_ok,
          Prod.mk.injEq] at h
        obtain ⟨⟨compiled, inner⟩, ⟨⟨graph, _⟩, hyes, rfl, rfl⟩, ⟨_, _⟩, hnone, rfl, rfl⟩ := h
        simp only [Except.ok.injEq, Prod.mk.injEq] at hnone
        obtain ⟨rfl, rfl⟩ := hnone
        obtain ⟨steps, states, hsteps, hc, hne, rfl⟩ := compiles_of_subPlan hyes
        obtain rfl : yes = steps := Document.list.inj hsteps
        exact ⟨[yes], [graphOf states], .cons hc hne .nil, .choice hs ht hf⟩
      · have : 1 + sizeOf no < sizeOf fields := by simpa using Fields.sizeOf_lt_of_get? hf
        simp only [hs, Compiler.slot_eq, Slot.text, ht, hf, bind_eq_ok, pure_eq_ok,
          Prod.mk.injEq] at h
        obtain ⟨⟨_, _⟩, ⟨⟨graph, _⟩, hyes, rfl, rfl⟩, ⟨_, _⟩, ⟨⟨other, _⟩, hno, rfl, rfl⟩,
          rfl, rfl⟩ := h
        obtain ⟨steps, states, hsteps, hc, hne, rfl⟩ := compiles_of_subPlan hyes
        obtain rfl : yes = steps := Document.list.inj hsteps
        obtain ⟨steps', states', hsteps', hc', hne', rfl⟩ := compiles_of_subPlan hno
        obtain rfl : no = steps' := Document.list.inj hsteps'
        exact ⟨[yes, no], [graphOf states, graphOf states'], .cons hc hne (.cons hc' hne' .nil),
          .choiceBoth hs ht hf⟩
termination_by sizeOf fields

theorem compilesAll_of_eachBranch {c : Compiler} {name : String} :
    ∀ {branches graphs : List Document} {index : Nat} {names final : Names},
    c.eachBranch name index names branches = .ok (graphs, final) →
    ∃ lists : List (List Document), branches = lists.map .list ∧
      CompilesAll c names lists graphs final
  | [], _, _, _, _, h => by
      simp only [Compiler.eachBranch_nil, Except.ok.injEq, Prod.mk.injEq] at h
      obtain ⟨rfl, rfl⟩ := h
      exact ⟨[], rfl, .nil⟩
  | branch :: rest, _, _, _, _, h => by
      simp only [Compiler.eachBranch_cons, bind_eq_ok, pure_eq_ok, Prod.mk.injEq] at h
      obtain ⟨⟨graph, inner⟩, hbranch, ⟨graphs, last⟩, hrest, rfl, rfl⟩ := h
      obtain ⟨steps, states, rfl, hc, hne, rfl⟩ := compiles_of_subPlan hbranch
      obtain ⟨lists, rfl, hall⟩ := compilesAll_of_eachBranch hrest
      exact ⟨steps :: lists, rfl, .cons hc hne hall⟩
termination_by branches => sizeOf branches

theorem compiles_of_subPlan {c : Compiler} {name : String} {slot : Slot} {names final : Names}
    {value result : Document}
    (h : c.subPlan name slot names value = .ok (result, final)) :
    ∃ steps states, value = .list steps ∧ Compiles c names steps states final ∧ states ≠ [] ∧
      result = graphOf states := by
  cases value with
  | list steps =>
      simp only [Compiler.subPlan_list, bind_eq_ok, pure_eq_ok, Prod.mk.injEq] at h
      obtain ⟨⟨states, last⟩, hseq, graph', hgraph, rfl, rfl⟩ := h
      obtain ⟨hne, rfl⟩ := graph_eq_ok hgraph
      exact ⟨steps, states, rfl, compiles_of_sequence hseq, hne, rfl⟩
  | _ => simp [Compiler.subPlan, Compiler.recordSubPlan] at h
termination_by sizeOf value

end

/-- The graph of a plan is that of a sequence to which the plan compiles. -/
theorem compiles_of_definition {c : Compiler} {plan definition : Document}
    (h : c.definition plan = .ok definition) :
    ∃ steps states final, plan = .list steps ∧ Compiles c (.ofPlan steps) steps states final ∧
      states ≠ [] ∧ definition = graphOf states := by
  cases plan with
  | list steps =>
      simp only [Compiler.definition_list, bind_eq_ok] at h
      obtain ⟨⟨states, final⟩, hseq, hgraph⟩ := h
      obtain ⟨hne, rfl⟩ := graph_eq_ok hgraph
      exact ⟨steps, states, final, rfl, compiles_of_sequence hseq, hne, rfl⟩
  | _ => simp [Compiler.definition, Compiler.recordDefinition] at h

/-- A fan-out over a plain step and a choice.  The plain step has the name that the merge
state behind the fan-out would get first. -/
def forkedPlan : List Document :=
  [.object [("Name", .string "Fan"), ("Branches", .list
    [.list [.object [("Name", .string "FanMerge"), ("Type", .string "Job")]],
     .list [.object [("IsFalse", .list [.object [("Name", .string "No")]]),
       ("Name", .string "Check"),
       ("IsTrue", .list [.object [("Name", .string "Yes"), ("Type", .string "Job")]])]]])]]

/-- The graph of the branch of `forkedPlan` that holds the choice. -/
def checkGraph : Document :=
  .object [("StartAt", .string "Check"), ("States", .object
    [("Check", .object
      [("IsFalse", .object [("StartAt", .string "No"), ("States", .object
         [("No", .object [("End", .bool true)])])]),
       ("IsTrue", .object [("StartAt", .string "Yes"), ("States", .object
         [("Yes", .object [("Type", .string "Job"), ("End", .bool true)])])]),
       ("Type", .string "Choice"), ("End", .bool true)])])]

/-- The graph of `forkedPlan`. -/
def forkedGraph : Document :=
  .object [("StartAt", .string "Fan"), ("States", .object
    [("Fan", .object
      [("Branches", .list
         [.object [("StartAt", .string "FanMerge"), ("States", .object
            [("FanMerge", .object [("Type", .string "Job"), ("End", .bool true)])])],
          checkGraph]),
       ("Type", .string "Parallel"), ("Next", .string "FanMerge2")]),
     ("FanMerge2", .object [("Type", .string "AttiniMergeOutput"), ("End", .bool true)])])]

example : ({} : Compiler).definition (.list forkedPlan) = .ok forkedGraph := rfl

end StepGraph.Plan
