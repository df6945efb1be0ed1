/-
Steps with the fields of both nesting shapes.

A step that holds both `Branches` and a slot of a choice needs a `Type` to
say which of them it is.  The compiler goes through a plan from place to
place, and the first fault that it meets is that of the plan.  So the first
such step without a `Type` that it arrives at is the fault, once the step's
name and what follows it are in order; and no plan is rejected for its shapes
otherwise.

It is the field `Type` that is asked for, not a text in it.  A step whose
`Type` is no text is taken for a fan-out, and what it holds in the slots of a
choice stays as the author wrote it.
-/
import StepGraph.Proofs.WellFormed

namespace StepGraph.Plan

/-! ## Places of a run -/

/-- A step holds the fields of both nesting shapes. -/
def CarriesBoth (fields : Fields Document) : Prop :=
  fields.get? "Branches" ≠ none ∧ (fields.get? "IsTrue" ≠ none ∨ fields.get? "IsFalse" ≠ none)

/-- The compiler arrives at entries of a plan: everything that it goes through before them has
compiled, and it has claimed these names. -/
inductive ArrivesAt (c : Compiler) (plan : List Document) :
    Scope → Nat → Option String → Names → List Document → Prop
  | start : ArrivesAt c plan .root 0 none (.ofPlan plan) plan
  | behind {scope : Scope} {index : Nat} {after : Option String} {names added inner : Names}
      {entry : Document} {rest : List Document} {name : String} {state : State} :
      ArrivesAt c plan scope index after names (entry :: rest) →
      checkEntry scope index after names entry = .ok (name, added) →
      c.state name added entry = .ok (state, inner) →
      ArrivesAt c plan scope (index + 1) (some name) (c.inserted name entry rest inner).2 rest
  | branch {scope : Scope} {index : Nat} {after : Option String} {names added inner : Names}
      {fields : Fields Document} {rest front back steps : List Document} {name : String}
      {graphs : List Document} :
      ArrivesAt c plan scope index after names (.object fields :: rest) →
      checkEntry scope index after names (.object fields) = .ok (name, added) →
      Shape.of fields = .parallel →
      fields.get? "Branches" = some (.list (front ++ .list steps :: back)) →
      c.eachBranch name 0 added front = .ok (graphs, inner) →
      ArrivesAt c plan (.slot name (.branch front.length)) 0 none inner steps
  | isTrue {scope : Scope} {index : Nat} {after : Option String} {names added : Names}
      {fields : Fields Document} {rest steps : List Document} {name : String} :
      ArrivesAt c plan scope index after names (.object fields :: rest) →
      checkEntry scope index after names (.object fields) = .ok (name, added) →
      Shape.of fields = .choice → fields.get? "IsTrue" = some (.list steps) →
      ArrivesAt c plan (.slot name .isTrue) 0 none added steps
  | isFalse {scope : Scope} {index : Nat} {after : Option String} {names added inner : Names}
      {fields : Fields Document} {rest steps : List Document} {name : String}
      {whenTrue : Option Document} :
      ArrivesAt c plan scope index after names (.object fields :: rest) →
      checkEntry scope index after names (.object fields) = .ok (name, added) →
      Shape.of fields = .choice → c.slot name .isTrue added fields = .ok (whenTrue, inner) →
      fields.get? "IsFalse" = some (.list steps) →
      ArrivesAt c plan (.slot name .isFalse) 0 none inner steps

/-- The checks of a step that come before its shape: it has a name of its own and leaves it to its
place what follows it. -/
structure PassesToShape (scope : Scope) (index : Nat) (after : Option String) (names : Names)
    (fields : Fields Document) (name : String) : Prop where
  named : stepName scope index after fields = .ok name
  claimed : ∃ added, names.claim name = .ok added
  unchained : checkChain name fields = .ok ()

/-- A state is a fan-out and holds what a step holds in the slots of a choice. -/
structure KeepsSlots (fields : Fields Document) (state : State) : Prop where
  fanOut : typeOf? state = some "Parallel"
  isTrue : state.get? "IsTrue" = fields.get? "IsTrue"
  isFalse : state.get? "IsFalse" = fields.get? "IsFalse"

/-! ## Faults on the way -/

section Faults

variable {c : Compiler} {name : String} {names inner : Names} {fault : Fault}

theorem Compiler.subPlan_error {slot : Slot} {steps : List Document}
    (h : c.sequence (.slot name slot) 0 none names steps = .error fault) :
    c.subPlan name slot names (.list steps) = .error fault := by
  rw [Compiler.subPlan_list]
  exact bind_of_error h _

theorem Compiler.slot_error {slot : Slot} {fields : Fields Document} {steps : List Document}
    (hslot : fields.get? slot.text = some (.list steps))
    (h : c.sequence (.slot name slot) 0 none names steps = .error fault) :
    c.slot name slot names fields = .error fault := by
  rw [Compiler.slot_eq, hslot]
  exact bind_of_error (Compiler.subPlan_error h) _

/-- Behind branches that compile the rest of them is compiled. -/
theorem Compiler.eachBranch_append {front graphs : List Document} {index : Nat}
    (h : c.eachBranch name index names front = .ok (graphs, inner)) (back : List Document) :
    c.eachBranch name index names (front ++ back) =
      c.eachBranch name (index + front.length) inner back >>= fun result =>
        pure (graphs ++ result.1, result.2) := by
  induction front generalizing index names graphs with
  | nil =>
      simp only [Compiler.eachBranch_nil, Except.ok.injEq, Prod.mk.injEq] at h
      obtain ⟨rfl, rfl⟩ := h
      exact (bind_pure _).symm
  | cons first front ih =>
      simp only [Compiler.eachBranch_cons, bind_eq_ok, pure_eq_ok, Prod.mk.injEq] at h
      obtain ⟨⟨graph, between⟩, hfirst, ⟨graphs, last⟩, hfront, rfl, rfl⟩ := h
      rw [List.cons_append, Compiler.eachBranch_cons, List.length_cons, Nat.add_comm front.length 1,
        ← Nat.add_assoc]
      refine (bind_of_ok hfirst _).trans ?_
      show (c.eachBranch name (index + 1) between (front ++ back) >>= _) = _
      rw [ih hfront, bind_assoc]
      rfl

theorem Compiler.branches_error {fields : Fields Document} {front back graphs steps : List Document}
    (hbranches : fields.get? "Branches" = some (.list (front ++ .list steps :: back)))
    (hfront : c.eachBranch name 0 names front = .ok (graphs, inner))
    (h : c.sequence (.slot name (.branch front.length)) 0 none inner steps = .error fault) :
    c.branches name names fields = .error fault := by
  have heach : c.eachBranch name 0 names (front ++ .list steps :: back) = .error fault := by
    rw [Compiler.eachBranch_append hfront, Nat.zero_add, Compiler.eachBranch_cons]
    exact bind_of_error (bind_of_error (Compiler.subPlan_error h) _) _
  have hlist : c.branchList name names (.list (front ++ .list steps :: back)) =
      .error fault := by
    cases front with
    | nil =>
        rw [List.nil_append, Compiler.branchList_cons]
        exact bind_of_error heach _
    | cons first front =>
        rw [List.cons_append, Compiler.branchList_cons]
        exact bind_of_error heach _
  rw [Compiler.branches_eq, hbranches]
  exact bind_of_error hlist _

/-- A step whose state has a fault gives it to its list. -/
theorem Compiler.sequence_of_state_error {scope : Scope} {index : Nat} {after : Option String}
    {added : Names} {entry : Document} {rest : List Document}
    (hcheck : checkEntry scope index after names entry = .ok (name, added))
    (h : c.state name added entry = .error fault) :
    c.sequence scope index after names (entry :: rest) = .error fault := by
  rw [Compiler.sequence_cons]
  exact (bind_of_ok hcheck _).trans (bind_of_error h _)

/-- A fault of the entries that the compiler arrives at is the fault of the plan. -/
theorem ArrivesAt.definition_error {plan steps : List Document} {scope : Scope} {index : Nat}
    {after : Option String} (ha : ArrivesAt c plan scope index after names steps)
    (h : c.sequence scope index after names steps = .error fault) :
    c.definition (.list plan) = .error fault := by
  induction ha with
  | start =>
      rw [Compiler.definition_list]
      exact bind_of_error h _
  | behind _ hcheck hstate ih =>
      refine ih ?_
      rw [Compiler.sequence_cons]
      exact (bind_of_ok hcheck _).trans ((bind_of_ok hstate _).trans (bind_of_error h _))
  | branch _ hcheck hshape hbranches hfront ih =>
      refine ih (Compiler.sequence_of_state_error hcheck ?_)
      rw [Compiler.state_object, hshape]
      exact bind_of_error (Compiler.branches_error hbranches hfront h) _
  | isTrue _ hcheck hshape hslot ih =>
      refine ih (Compiler.sequence_of_state_error hcheck ?_)
      rw [Compiler.state_object, hshape]
      exact bind_of_error (Compiler.slot_error hslot h) _
  | isFalse _ hcheck hshape htrue hslot ih =>
      refine ih (Compiler.sequence_of_state_error hcheck ?_)
      rw [Compiler.state_object, hshape]
      exact (bind_of_ok htrue _).trans (bind_of_error (Compiler.slot_error hslot h) _)

end Faults

/-! ## Where a conflict is met -/

section Met

variable {c : Compiler} {plan : List Document} {step : String}

/-- The compiler arrives at an entry that fails its checks for the shapes of a step. -/
def MeetsConflict (c : Compiler) (plan : List Document) (step : String) : Prop :=
  ∃ scope index after names entry rest, ArrivesAt c plan scope index after names (entry :: rest) ∧
    checkEntry scope index after names entry = .error (.conflictingShape step)

theorem stepName_ne_conflict {scope : Scope} {index : Nat} {after : Option String}
    {fields : Fields Document} :
    stepName scope index after fields ≠ .error (.conflictingShape step) := by
  unfold stepName
  split
  · exact nofun
  · split
    · exact nofun
    · exact nofun
  · exact nofun

theorem claim_ne_conflict {names : Names} {name : String} :
    names.claim name ≠ .error (.conflictingShape step) := by
  unfold Names.claim
  split
  · exact nofun
  · exact nofun

theorem checkChain_ne_conflict {name : String} {fields : Fields Document} :
    checkChain name fields ≠ .error (.conflictingShape step) := by
  unfold checkChain
  split
  · exact nofun
  · split
    · exact nofun
    · exact nofun

theorem checkSlot_ne_conflict {name : String} {slot : Slot} {fields : Fields Document} :
    checkSlot name slot fields ≠ .error (.conflictingShape step) := by
  unfold checkSlot
  split
  · exact nofun
  · exact nofun
  · exact nofun

/-- A check finds the shapes of a step to conflict if they do, and only then. -/
theorem checkShape_eq_conflict {name : String} {fields : Fields Document} :
    checkShape name fields = .error (.conflictingShape step) ↔
      conflicts fields = true ∧ name = step := by
  constructor
  · intro h
    unfold checkShape at h
    split at h
    · rename_i hconflicts
      cases h
      exact ⟨hconflicts, rfl⟩
    · split at h
      · cases h
      · exact absurd h checkSlot_ne_conflict
      · split at h
        · rcases bind_eq_error.mp h with htrue | ⟨_, -, h⟩
          · exact absurd htrue checkSlot_ne_conflict
          · split at h
            · exact absurd h checkSlot_ne_conflict
            · cases h
        · cases h
  · rintro ⟨hconflicts, rfl⟩
    rw [checkShape, if_pos hconflicts]

/-- An entry fails its checks for the shapes of a step if it passes those before it and holds the
fields of both shapes without a `Type`. -/
theorem checkEntry_eq_conflict {scope : Scope} {index : Nat} {after : Option String}
    {names : Names} {entry : Document} :
    checkEntry scope index after names entry = .error (.conflictingShape step) ↔
      ∃ fields : Fields Document, entry = .object fields ∧
        PassesToShape scope index after names fields step ∧ CarriesBoth fields ∧
        fields.get? "Type" = none := by
  constructor
  · intro h
    cases entry with
    | object fields =>
        rw [checkEntry_object] at h
        rcases bind_eq_error.mp h with hname | ⟨name, hname, h⟩
        · exact absurd hname stepName_ne_conflict
        rcases bind_eq_error.mp h with hclaim | ⟨added, hclaim, h⟩
        · exact absurd hclaim claim_ne_conflict
        rcases bind_eq_error.mp h with hchain | ⟨⟨⟩, hchain, h⟩
        · exact absurd hchain checkChain_ne_conflict
        rcases bind_eq_error.mp h with hshape | ⟨_, -, hpure⟩
        · obtain ⟨hconflicts, rfl⟩ := checkShape_eq_conflict.mp hshape
          obtain ⟨ht, hboth⟩ := conflicts_eq_true.mp hconflicts
          exact ⟨fields, rfl, ⟨hname, ⟨added, hclaim⟩, hchain⟩, hboth, ht⟩
        · cases hpure
    | _ => cases h
  · rintro ⟨fields, rfl, hp, hboth, ht⟩
    obtain ⟨added, hclaimed⟩ := hp.claimed
    rw [checkEntry_object]
    refine (bind_of_ok hp.named _).trans ((bind_of_ok hclaimed _).trans ?_)
    refine (bind_of_ok hp.unchained _).trans (bind_of_error ?_ _)
    exact checkShape_eq_conflict.mpr ⟨conflicts_eq_true.mpr ⟨ht, hboth⟩, rfl⟩

/-! ### The way to a conflict -/

/-- A graph that cannot be made is that of an empty list. -/
theorem graph_ne_conflict {scope : Scope} {states : List (String × State)} :
    graph scope states ≠ .error (.conflictingShape step) := by
  cases states with
  | nil => exact nofun
  | cons first rest => exact nofun

theorem Compiler.sequence_of_subPlan_conflict {name : String} {slot : Slot} {names : Names}
    {value : Document} (h : c.subPlan name slot names value = .error (.conflictingShape step)) :
    ∃ steps, value = .list steps ∧
      c.sequence (.slot name slot) 0 none names steps = .error (.conflictingShape step) := by
  cases value with
  | list steps =>
      rw [Compiler.subPlan_list] at h
      refine ⟨steps, rfl, ?_⟩
      rcases bind_eq_error.mp h with hsequence | ⟨⟨states, final⟩, -, hgraph⟩
      · exact hsequence
      · rcases bind_eq_error.mp hgraph with hgraph | ⟨_, -, hpure⟩
        · exact absurd hgraph graph_ne_conflict
        · cases hpure
  | _ => cases h

theorem Compiler.sequence_of_slot_conflict {name : String} {slot : Slot} {names : Names}
    {fields : Fields Document}
    (h : c.slot name slot names fields = .error (.conflictingShape step)) :
    ∃ steps, fields.get? slot.text = some (.list steps) ∧
      c.sequence (.slot name slot) 0 none names steps = .error (.conflictingShape step) := by
  rw [Compiler.slot_eq] at h
  cases hv : fields.get? slot.text with
  | none =>
      rw [hv] at h
      cases h
  | some value =>
      rw [hv] at h
      rcases bind_eq_error.mp h with hsubPlan | ⟨_, -, hpure⟩
      · obtain ⟨steps, rfl, hsequence⟩ := Compiler.sequence_of_subPlan_conflict hsubPlan
        exact ⟨steps, rfl, hsequence⟩
      · cases hpure

theorem Compiler.eachBranch_of_branches_conflict {name : String} {names : Names}
    {fields : Fields Document}
    (h : c.branches name names fields = .error (.conflictingShape step)) :
    ∃ branches, fields.get? "Branches" = some (.list branches) ∧
      c.eachBranch name 0 names branches = .error (.conflictingShape step) := by
  rw [Compiler.branches_eq] at h
  cases hv : fields.get? "Branches" with
  | none =>
      rw [hv] at h
      cases h
  | some value =>
      rw [hv] at h
      rcases bind_eq_error.mp h with hlist | ⟨_, -, hpure⟩
      · cases value with
        | list branches =>
            cases branches with
            | nil => cases hlist
            | cons first others =>
                rw [Compiler.branchList_cons] at hlist
                rcases bind_eq_error.mp hlist with heach | ⟨_, -, hpure⟩
                · exact ⟨first :: others, rfl, heach⟩
                · cases hpure
        | _ => cases hlist
      · cases hpure

/-! The three ways on from a place: along its list, into a step, and along the branches of one.
What lies in front of the conflict has compiled, so the compiler arrives at each further place. -/

mutual

/-- A conflict among entries that the compiler arrives at is met on the way through them. -/
theorem ArrivesAt.meets : ∀ {steps : List Document} {scope : Scope} {index : Nat}
    {after : Option String} {names : Names}, ArrivesAt c plan scope index after names steps →
    c.sequence scope index after names steps = .error (.conflictingShape step) →
    MeetsConflict c plan step
  | [], _, _, _, _, _, h => by
      rw [Compiler.sequence_nil] at h
      cases h
  | entry :: rest, scope, index, after, names, ha, h => by
      rw [Compiler.sequence_cons] at h
      rcases bind_eq_error.mp h with hcheck | ⟨⟨name, added⟩, hcheck, h⟩
      · exact ⟨scope, index, after, names, entry, rest, ha, hcheck⟩
      obtain ⟨fields, rfl, -, -, -⟩ := checkEntry_eq_ok hcheck
      rcases bind_eq_error.mp h with hstate | ⟨⟨state, inner⟩, hstate, h⟩
      · exact ha.meets_state hcheck hstate
      rcases bind_eq_error.mp h with hrest | ⟨_, -, hpure⟩
      · exact (ha.behind hcheck hstate).meets hrest
      · cases hpure
termination_by steps => sizeOf steps

theorem ArrivesAt.meets_state {scope : Scope} {index : Nat} {after : Option String}
    {names added : Names} {fields : Fields Document} {rest : List Document} {name : String}
    (ha : ArrivesAt c plan scope index after names (.object fields :: rest))
    (hcheck : checkEntry scope index after names (.object fields) = .ok (name, added))
    (h : c.state name added (.object fields) = .error (.conflictingShape step)) :
    MeetsConflict c plan step := by
  rw [Compiler.state_object] at h
  cases hs : Shape.of fields with
  | plain =>
      rw [hs] at h
      cases h
  | parallel =>
      rw [hs] at h
      rcases bind_eq_error.mp h with hbranches | ⟨_, -, hpure⟩
      · obtain ⟨branches, hb, heach⟩ := Compiler.eachBranch_of_branches_conflict hbranches
        have := sizeOf_lt_of_get?_list hb
        exact ha.meets_eachBranch hcheck hs branches [] hb (c.eachBranch_nil name added 0) heach
      · cases hpure
  | choice =>
      rw [hs] at h
      rcases bind_eq_error.mp h with htrue | ⟨⟨whenTrue, inner⟩, htrue, h⟩
      · obtain ⟨steps, hslot, hsequence⟩ := Compiler.sequence_of_slot_conflict htrue
        have := sizeOf_lt_of_get?_list hslot
        exact (ha.isTrue hcheck hs hslot).meets hsequence
      rcases bind_eq_error.mp h with hfalse | ⟨_, -, hpure⟩
      · obtain ⟨steps, hslot, hsequence⟩ := Compiler.sequence_of_slot_conflict hfalse
        have := sizeOf_lt_of_get?_list hslot
        exact (ha.isFalse hcheck hs htrue hslot).meets hsequence
      · cases hpure
termination_by sizeOf fields

theorem ArrivesAt.meets_eachBranch {scope : Scope} {index : Nat} {after : Option String}
    {names added : Names} {fields : Fields Document} {rest : List Document} {name : String}
    (ha : ArrivesAt c plan scope index after names (.object fields :: rest))
    (hcheck : checkEntry scope index after names (.object fields) = .ok (name, added))
    (hs : Shape.of fields = .parallel) : ∀ (back front : List Document) {graphs : List Document}
    {inner : Names}, fields.get? "Branches" = some (.list (front ++ back)) →
    c.eachBranch name 0 added front = .ok (graphs, inner) →
    c.eachBranch name front.length inner back = .error (.conflictingShape step) →
    MeetsConflict c plan step
  | [], _, _, _, _, _, h => by
      rw [Compiler.eachBranch_nil] at h
      cases h
  | first :: back, front, graphs, inner, hb, hfront, h => by
      rw [Compiler.eachBranch_cons] at h
      rcases bind_eq_error.mp h with hfirst | ⟨⟨compiled, last⟩, hfirst, h⟩
      · obtain ⟨steps, rfl, hsequence⟩ := Compiler.sequence_of_subPlan_conflict hfirst
        exact (ha.branch hcheck hs hb hfront).meets hsequence
      rcases bind_eq_error.mp h with hback | ⟨_, -, hpure⟩
      · have hlast : c.eachBranch name front.length inner [first] = .ok ([compiled], last) := by
          rw [Compiler.eachBranch_cons]
          exact (bind_of_ok hfirst _).trans (bind_of_ok (c.eachBranch_nil name last _) _)
        have hnext : c.eachBranch name 0 added (front ++ [first]) =
            .ok (graphs ++ [compiled], last) := by
          rw [Compiler.eachBranch_append hfront, Nat.zero_add]
          exact bind_of_ok hlast _
        rw [List.append_cons] at hb
        refine ha.meets_eachBranch hcheck hs back (front ++ [first]) hb hnext ?_
        rw [List.length_append]
        exact hback
      · cases hpure
termination_by back => sizeOf back

end

/-- A plan is rejected for the shapes of a step exactly if the compiler arrives at an entry that
fails its checks for them. -/
theorem definition_eq_conflict :
    c.definition (.list plan) = .error (.conflictingShape step) ↔ MeetsConflict c plan step := by
  constructor
  · intro h
    rw [Compiler.definition_list] at h
    rcases bind_eq_error.mp h with hsequence | ⟨_, -, hgraph⟩
    · exact ArrivesAt.start.meets hsequence
    · exact absurd hgraph graph_ne_conflict
  · rintro ⟨scope, index, after, names, entry, rest, ha, hcheck⟩
    refine ha.definition_error ?_
    rw [Compiler.sequence_cons]
    exact bind_of_error hcheck _

end Met


/-! ## Steps that are accepted -/

section Both

variable {c : Compiler} {plan : List Document} {fields : Fields Document}

/-- With the fields of both shapes and a `Type` that is no text a step is a fan-out. -/
theorem shape_of_noText (hboth : CarriesBoth fields) {value : Document}
    (ht : fields.get? "Type" = some value) (htext : value.text? = none) :
    Shape.of fields = .parallel := by
  have hbranches : fields.has "Branches" = true := Option.isSome_iff_ne_none.mpr hboth.1
  have htype : typeOf? fields = none := by
    rw [typeOf?, ht]
    exact htext
  simp only [Shape.of, htype, hbranches, if_true]

/-- A fan-out has the fields of its step but for its name, its type and its branches. -/
theorem StateOf.get?_fanOut {lists : List (List Document)} {graphs : List Document} {state : State}
    (h : StateOf fields lists graphs state) (hs : Shape.of fields = .parallel) {key : String}
    (hk : key ∉ ["Name", "Type", "Branches"]) : state.get? key = fields.get? key := by
  simp only [List.mem_cons, List.not_mem_nil, or_false, not_or] at hk
  obtain ⟨hn, ht, hb⟩ := hk
  cases h with
  | parallel _ _ _ =>
      rw [Fields.get?_insert_of_ne _ _ (Ne.symm ht), Fields.get?_replace_of_ne _ _ (Ne.symm hb),
        Fields.get?_erase_of_ne _ (Ne.symm hn)]
  | plain hplain => cases hs.symm.trans hplain
  | choice hchoice _ _ => cases hs.symm.trans hchoice
  | choiceBoth hchoice _ _ => cases hs.symm.trans hchoice

theorem StateOf.keepsSlots {lists : List (List Document)} {graphs : List Document} {state : State}
    (h : StateOf fields lists graphs state) (hs : Shape.of fields = .parallel) :
    KeepsSlots fields state := by
  refine ⟨?_, h.get?_fanOut hs (by decide), h.get?_fanOut hs (by decide)⟩
  rw [h.typeOf?_eq, hs]

/-- What follows a state changes nothing about its slots. -/
theorem KeepsSlots.chained {state : State} (h : KeepsSlots fields state) {key : String}
    (value : Document) (hk : key = "Next" ∨ key = "End") :
    KeepsSlots fields (state.insert key value) := by
  refine ⟨?_, ?_, ?_⟩
  · rw [typeOf?, get?_chained value hk (by decide)]
    exact h.fanOut
  · exact (get?_chained value hk (by decide)).trans h.isTrue
  · exact (get?_chained value hk (by decide)).trans h.isFalse

/-- In the graph of an accepted plan a step of the shape of a fan-out keeps its slots. -/
theorem exists_keepsSlots {definition : Document} {steps : List Document}
    (hd : c.definition (.list plan) = .ok definition) (hl : ListIn plan steps)
    (hf : .object fields ∈ steps) (hs : Shape.of fields = .parallel) :
    ∃ graph name state, GraphIn definition graph ∧ (name, .object state) ∈ statesOf graph ∧
      fields.get? "Name" = some (.string name) ∧ KeepsSlots fields state := by
  have hplan := graphFor_of_definition hd
  obtain ⟨graph, hplaced⟩ := hl.placed hplan
  obtain ⟨states, haligned, -, -, -, hstates⟩ := (hplaced.graphFor hplan).aligned
  obtain ⟨_, name, state, ⟨⟩, hfor, hmem⟩ := haligned.state_of_entry hf
  obtain ⟨key, value, hk, hchained⟩ := mem_chain_of_mem hmem
  obtain ⟨lists, graphs, hof⟩ := hfor.built
  refine ⟨graph, name, _, hplaced.graphIn, ?_, hfor.named, (hof.keepsSlots hs).chained value hk⟩
  rw [hstates]
  exact hchained

end Both

/-- What becomes of the steps of a plan that hold the fields of both nesting shapes. -/
structure ConflictsDecided (c : Compiler) (plan : List Document) : Prop where
  /-- The plan is rejected for one exactly if the compiler arrives at one without a `Type` and
  finds its name and what follows it in order. -/
  rejected_iff : ∀ name, c.definition (.list plan) = .error (.conflictingShape name) ↔
    ∃ scope index after names, ∃ fields : Fields Document, ∃ rest,
      ArrivesAt c plan scope index after names (.object fields :: rest) ∧
      PassesToShape scope index after names fields name ∧ CarriesBoth fields ∧
      fields.get? "Type" = none
  /-- In a plan that compiles all have a `Type`.  If it is no text the step is a fan-out in the
  graph, and its slots of a choice are as authored. -/
  accepted : ∀ definition steps (fields : Fields Document),
    c.definition (.list plan) = .ok definition → ListIn plan steps → .object fields ∈ steps →
    CarriesBoth fields → ∃ value, fields.get? "Type" = some value ∧
      ((∃ type, value = .string type) ∨
        ∃ graph name state, GraphIn definition graph ∧ (name, .object state) ∈ statesOf graph ∧
          fields.get? "Name" = some (.string name) ∧ KeepsSlots fields state)

/-- Between the fields of both nesting shapes a `Type` decides if it is a text; without one the step
is rejected, and with one that is no text it passes for a fan-out. -/
theorem conflicts_decided (c : Compiler) (plan : List Document) : ConflictsDecided c plan := by
  refine ⟨?_, ?_⟩
  · intro name
    rw [definition_eq_conflict]
    constructor
    · rintro ⟨scope, index, after, names, entry, rest, ha, hcheck⟩
      obtain ⟨fields, rfl, hp, hboth, ht⟩ := checkEntry_eq_conflict.mp hcheck
      exact ⟨scope, index, after, names, fields, rest, ha, hp, hboth, ht⟩
    · rintro ⟨scope, index, after, names, fields, rest, ha, hp, hboth, ht⟩
      have hcheck := checkEntry_eq_conflict.mpr ⟨fields, rfl, hp, hboth, ht⟩
      exact ⟨scope, index, after, names, _, rest, ha, hcheck⟩
  · intro definition steps fields hd hl hf hboth
    have hwellFormed : WellFormed plan := exists_definition_iff_wellFormed.mp ⟨definition, hd⟩
    obtain ⟨_, ⟨⟩, hsound⟩ := hwellFormed.sound steps hl _ hf
    cases ht : fields.get? "Type" with
    | none => exact absurd ⟨ht, hboth⟩ hsound.oneShape
    | some value =>
        refine ⟨value, rfl, ?_⟩
        have hkept : value.text? = none → _ := fun htext =>
          exists_keepsSlots hd hl hf (shape_of_noText hboth ht htext)
        cases value with
        | string type => exact .inl ⟨type, rfl⟩
        | _ => exact .inr (hkept rfl)

/-- A plan with a step of both shapes and no `Type` in its second branch. -/
def untypedPlan : List Document :=
  [.object [("Name", .string "Fan"), ("Branches", .list
    [.list [.object [("Name", .string "Leaf")]],
     .list [.object [("Name", .string "Both"), ("Branches", .list []),
       ("IsFalse", .list [])]]])]]

/-- A plan with a step of both shapes whose `Type` is null. -/
def nullTypedPlan : List Document :=
  [.object [("Name", .string "Fan"), ("Type", .null),
    ("Branches", .list [.list [.object [("Name", .string "Leaf")]]]),
    ("IsTrue", .list [.object [("Name", .string "Lost")]])]]

/-- The step without a `Type` is the fault of its plan; that with a null compiles to a fan-out in
which a list of steps is left. -/
theorem nullTypedPlan_keepsSlots :
    ({} : Compiler).definition (.list untypedPlan) = .error (.conflictingShape "Both") ∧
      ∃ definition graph name, ∃ state : State,
        ({} : Compiler).definition (.list nullTypedPlan) = .ok definition ∧
        GraphIn definition graph ∧ (name, .object state) ∈ statesOf graph ∧
        typeOf? state = some "Parallel" ∧
        state.get? "IsTrue" = some (.list [.object [("Name", .string "Lost")]]) := by
  let both : Fields Document :=
    [("Name", .string "Both"), ("Branches", .list []), ("IsFalse", .list [])]
  let leaf : Document := .list [.object [("Name", .string "Leaf")]]
  let fan : Fields Document :=
    [("Name", .string "Fan"), ("Branches", .list [leaf, .list [.object both]])]
  let names : Names := ⟨["Leaf", "Fan"], authoredNames untypedPlan⟩
  constructor
  · have hbranches : fan.get? "Branches" = some (.list ([leaf] ++ .list [.object both] :: [])) :=
      rfl
    have harrives : ArrivesAt {} untypedPlan (.slot "Fan" (.branch 1)) 0 none names
        [.object both] := .branch .start rfl rfl hbranches rfl
    have hpasses : PassesToShape (.slot "Fan" (.branch 1)) 0 none names both "Both" :=
      ⟨rfl, ⟨_, rfl⟩, rfl⟩
    exact ((conflicts_decided {} untypedPlan).rejected_iff "Both").mpr
      ⟨_, _, _, _, both, [], harrives, hpasses, ⟨nofun, .inr nofun⟩, rfl⟩
  · obtain ⟨definition, hd⟩ :
        ∃ definition, ({} : Compiler).definition (.list nullTypedPlan) = .ok definition :=
      ⟨_, rfl⟩
    obtain ⟨value, ht, ⟨type, htext⟩ | ⟨graph, name, state, hg, hm, -, hkeeps⟩⟩ :=
      (conflicts_decided {} nullTypedPlan).accepted definition _ _ hd .root (.head _)
        ⟨nofun, .inl nofun⟩
    · cases ht.trans (congrArg some htext)
    · exact ⟨definition, graph, name, state, hd, hg, hm, hkeeps.fanOut, hkeeps.isTrue⟩

end StepGraph.Plan
