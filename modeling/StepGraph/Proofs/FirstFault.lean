/-
The compiler stops at the first fault of a reading.

The compiler and the reading go through a plan side by side.  The compiler has
a store of names in which those of merge states lie too; the reading has what
it came across.  `Agrees` says that the two know the same of the names that
the author wrote, and no merge state has one of these; so at every step both
stop with the same fault or both go on.
-/
import StepGraph.Proofs.Compilation
import StepGraph.Proofs.Reading

namespace StepGraph.Plan

/-! ## Two runs side by side -/

/-- Of the names that the author wrote those are claimed whose steps were come across. -/
structure Agrees (written : List String) (names : Names) (found : List Finding) : Prop where
  authored : names.authored = written
  claimed : ∀ name ∈ written, name ∈ names.claimed ↔ .step name ∈ found

/-- A run of the compiler and a reading end with the same fault, or with names and findings
that agree. -/
inductive Alike (written : List String) {α : Type} :
    Except Fault (α × Names) → Except Fault (List Finding) → Prop
  | fault (fault : Fault) : Alike written (.error fault) (.error fault)
  | result {value : α} {names : Names} {found : List Finding} :
      Agrees written names found → Alike written (.ok (value, names)) (.ok found)

section SideBySide

variable {written : List String} {names : Names} {found : List Finding}

theorem Alike.bind {α β : Type} {run : Except Fault (α × Names)}
    {reading : Except Fault (List Finding)} {next : α × Names → Except Fault (β × Names)}
    {more : List Finding → Except Fault (List Finding)} (h : Alike written run reading)
    (hnext : ∀ value names found, run = .ok (value, names) → Agrees written names found →
      Alike written (next (value, names)) (more found)) :
    Alike written (run >>= next) (reading >>= more) := by
  cases h with
  | fault fault => exact .fault fault
  | result hagrees => exact hnext _ _ _ rfl hagrees

/-- What is made of the value of a run does not matter. -/
theorem Alike.map {α β : Type} {run : Except Fault (α × Names)}
    {reading : Except Fault (List Finding)} (h : Alike written run reading) (f : α → β) :
    Alike written (run >>= fun result => pure (f result.1, result.2)) reading := by
  cases h with
  | fault fault => exact .fault fault
  | result hagrees => exact .result hagrees

/-- A step that was come across has its name claimed. -/
theorem Agrees.add (h : Agrees written names found) (name : String) :
    Agrees written (names.add name) (found ++ [.step name]) := by
  refine ⟨h.authored, fun other ho => ?_⟩
  show other ∈ name :: names.claimed ↔ _
  rw [List.mem_cons, List.mem_append, h.claimed other ho, List.mem_singleton,
    Finding.step.injEq, or_comm]

/-- A name that the author did not write makes no difference. -/
theorem Agrees.addNew (h : Agrees written names found) {name : String} (hn : name ∉ written) :
    Agrees written (names.add name) found := by
  refine ⟨h.authored, fun other ho => ?_⟩
  have hne : other ≠ name := fun he => hn (he ▸ ho)
  show other ∈ name :: names.claimed ↔ _
  rw [List.mem_cons, h.claimed other ho]
  simp [hne]

theorem Agrees.inserted {c : Compiler} {name : String} {entry : Document}
    {rest : List Document} {behind : Names} {merge : List (String × State)}
    (h : Agrees written names found) (hins : c.inserted name entry rest names = (merge, behind)) :
    Agrees written behind found := by
  rcases c.inserted_eq hins with ⟨-, -, rfl⟩ | ⟨mergeName, -, -, rfl, hfree⟩
  · exact h
  · refine h.addNew ?_
    rw [← h.authored]
    exact (Names.taken_eq_false_iff.mp hfree).2

/-! ## The checks of a step -/

/-- The outcome of checks that find some faults. -/
def firstOf : List Fault → Except Fault Unit
  | [] => .ok ()
  | fault :: _ => .error fault

theorem firstOf_append (faults more : List Fault) :
    firstOf (faults ++ more) = firstOf faults >>= fun _ => firstOf more := by
  cases faults with
  | nil => rfl
  | cons fault rest => rfl

/-- A reading gets past faults only if there are none. -/
theorem read_faults (before : List Finding) (faults : List Fault) :
    read before (faults.map .wrong) = firstOf faults >>= fun _ => .ok before := by
  cases faults with
  | nil => rfl
  | cons fault rest => rfl

theorem checkChain_eq (name : String) (fields : Fields Document) :
    checkChain name fields = firstOf (chainFaults name fields) := by
  rw [checkChain, chainFaults]
  by_cases hn : fields.has "Next" = true
  · rw [if_pos hn, List.filter_cons_of_pos hn]
    rfl
  · rw [if_neg hn, List.filter_cons_of_neg hn]
    by_cases he : fields.has "End" = true
    · rw [if_pos he, List.filter_cons_of_pos he]
      rfl
    · rw [if_neg he, List.filter_cons_of_neg he]
      rfl

theorem checkSlot_eq (name : String) (slot : Slot) (fields : Fields Document) :
    checkSlot name slot fields = firstOf (slotFaults name slot (fields.get? slot.text)) := by
  rw [checkSlot]
  cases fields.get? slot.text with
  | none => rfl
  | some value => cases value <;> rfl

theorem checkShape_eq (name : String) (fields : Fields Document) :
    checkShape name fields =
      firstOf ((if conflicts fields then [.conflictingShape name] else []) ++
        shapeFaults name fields) := by
  rw [checkShape, shapeFaults]
  by_cases hc : conflicts fields = true
  · rw [if_pos hc, if_pos hc]
    rfl
  · rw [if_neg hc, if_neg hc, List.nil_append]
    cases Shape.of fields with
    | plain => rfl
    | parallel => exact checkSlot_eq name .branches fields
    | choice =>
        cases ht : fields.get? "IsTrue" with
        | none => simp [Fields.has, ht, firstOf]
        | some whenTrue =>
            have htrue : checkSlot name .isTrue fields =
                firstOf (slotFaults name .isTrue (some whenTrue)) := by
              rw [checkSlot_eq, Slot.text, ht]
            have hhas : fields.has "IsTrue" = true := by rw [Fields.has, ht]; rfl
            simp only [hhas, if_true]
            rw [htrue, firstOf_append]
            by_cases hf : fields.has "IsFalse" = true
            · rw [if_pos hf, if_pos hf, checkSlot_eq]
              rfl
            · rw [if_neg hf, if_neg hf]
              rfl

/-- The name of a step is usable, or the compiler says what is wrong with it. -/
theorem stepName_eq (scope : Scope) (index : Nat) (after : Option String)
    (fields : Fields Document) :
    stepName scope index after fields =
      match usableName? fields with
      | some name => .ok name
      | none => .error (nameFault scope index after fields) := by
  rw [stepName, usableName?, nameFault, Fields.has]
  cases fields.get? "Name" with
  | none => rfl
  | some value =>
      cases value with
      | string text => by_cases he : text = "" <;> simp [he]
      | _ => rfl

/-- The compiler finds at a step with a usable name what the reading finds before it looks for
branches. -/
theorem checkEntry_alike {scope : Scope} {index : Nat} {after : Option String}
    {fields : Fields Document} {name : String} (h : Agrees written names found)
    (hname : usableName? fields = some name) (hm : name ∈ written) :
    Alike written (checkEntry scope index after names (.object fields))
      (read found (.step name :: (checkFaults name fields).map .wrong)) := by
  rw [checkEntry_object, stepName_eq, hname, read, Finding.fault?]
  show Alike written (names.claim name >>= _) _
  by_cases hc : name ∈ names.claimed
  · have hclaim : names.claim name = .error (.duplicateName name) := by simp [Names.claim, hc]
    rw [hclaim, if_pos ((h.claimed name hm).mp hc)]
    exact .fault _
  · have hclaim : names.claim name = .ok (names.add name) := by simp [Names.claim, Names.add, hc]
    rw [hclaim, if_neg (fun hf => hc ((h.claimed name hm).mpr hf))]
    show Alike written (checkChain name fields >>= fun _ => checkShape name fields >>= _)
      (read (found ++ [.step name]) _)
    rw [read_faults, checkFaults, checkChain_eq, checkShape_eq,
      firstOf_append (chainFaults name fields)]
    cases firstOf (chainFaults name fields) with
    | error fault => exact .fault fault
    | ok _ =>
        cases firstOf ((if conflicts fields then [.conflictingShape name] else []) ++
          shapeFaults name fields) with
        | error fault => exact .fault fault
        | ok _ => exact .result (h.add name)

end SideBySide

/-! ## Lists and what lies in them -/

/-- A list that is not empty does not compile to nothing. -/
theorem Compiles.states_ne_nil {c : Compiler} {names final : Names} {entry : Document}
    {rest : List Document} {states : List (String × State)}
    (h : Compiles c names (entry :: rest) states final) : states ≠ [] := by
  cases h with
  | cons _ _ _ _ _ => exact List.cons_ne_nil _ _

theorem graph_of_ne_nil (scope : Scope) {states : List (String × State)} (h : states ≠ []) :
    graph scope states = .ok (graphOf states) := by
  cases states with
  | nil => exact absurd rfl h
  | cons first rest => rfl

/-- The graph of a list comes about if its entries have been read and there are any. -/
theorem graph_alike {c : Compiler} {written : List String} {scope : Scope} {names : Names}
    {found : List Finding} {steps : List Document}
    (h : Alike written (c.sequence scope 0 none names steps)
      (read found (entriesFindings scope 0 none steps))) :
    Alike written (do
        let (states, names) ← c.sequence scope 0 none names steps
        return (← graph scope states, names))
      (read found (listFindings scope steps)) := by
  cases steps with
  | nil =>
      rw [Compiler.sequence_nil]
      exact .fault _
  | cons entry rest =>
      rw [listFindings, emptyFindings, List.nil_append]
      generalize read found (entriesFindings scope 0 none (entry :: rest)) = reading at h ⊢
      cases hs : c.sequence scope 0 none names (entry :: rest) with
      | error fault =>
          rw [hs] at h
          cases h
          exact .fault fault
      | ok result =>
          obtain ⟨states, final⟩ := result
          have hgraph := graph_of_ne_nil scope (compiles_of_sequence hs).states_ne_nil
          show Alike written (graph scope states >>= fun g => pure (g, final)) reading
          rw [hs] at h
          rw [hgraph]
          cases h with
          | result hagrees => exact .result hagrees

/-- A slot is read like what stands in it. -/
theorem slot_alike {c : Compiler} {written : List String} {name : String} {slot : Slot}
    {fields : Fields Document} {names : Names} {found : List Finding}
    (h : Agrees written names found)
    (hvalue : ∀ value, fields.get? slot.text = some value →
      Alike written (c.subPlan name slot names value)
        (read found (placeFindings ⟨name, slot, value⟩))) :
    Alike written (c.slot name slot names fields)
      (read found (((fields.get? slot.text).toList.map (Place.mk name slot)).flatMap
        placeFindings)) := by
  rw [c.slot_eq]
  cases hv : fields.get? slot.text with
  | none => exact .result h
  | some value =>
      rw [Option.toList_some, List.map_singleton, List.flatMap_singleton]
      exact (hvalue value hv).map some

mutual

theorem sequence_alike {c : Compiler} {written : List String} : ∀ {steps : List Document}
    {scope : Scope} {index : Nat} {after : Option String} {names : Names}
    {found : List Finding}, Agrees written names found → authoredNames steps ⊆ written →
    Alike written (c.sequence scope index after names steps)
      (read found (entriesFindings scope index after steps))
  | [], _, _, _, _, _, h, _ => by
      rw [Compiler.sequence_nil, entriesFindings]
      exact .result h
  | entry :: rest, scope, index, after, names, found, h, hsub => by
      rw [authoredNames_eq, List.flatMap_cons, ← authoredNames_eq] at hsub
      obtain ⟨hentry, hrest⟩ := List.append_subset.mp hsub
      rw [Compiler.sequence_cons, entriesFindings_cons]
      cases entry with
      | object fields =>
          rw [entryFindings, entryPlaces]
          cases hname : usableName? fields with
          | none =>
              rw [checkEntry_object, stepName_eq, hname]
              exact .fault _
          | some name =>
              obtain ⟨hnamed, hne⟩ := usableName?_eq_some.mp hname
              have hm : name ∈ written := by
                refine hentry ?_
                rw [entryNames, ownNames_of_named hnamed]
                exact List.mem_cons_self
              have htext : (Document.object fields).textAt? "Name" = some name :=
                Document.textAt?_object hnamed
              simp only [stepFaults, List.map_append, ← List.cons_append, List.append_assoc, htext]
              rw [read_append]
              refine (checkEntry_alike h hname hm).bind ?_
              intro name' names' found' hcheck h'
              obtain ⟨_, ⟨⟩, hchecked, rfl, hshape⟩ := checkEntry_eq_ok hcheck
              obtain rfl : name = name' := by simpa using hnamed.symm.trans hchecked.named
              rw [← List.append_assoc, read_append]
              refine (state_alike hshape h' hentry).bind ?_
              intro state inner found'' _ h''
              exact (sequence_alike (h''.inserted rfl) hrest).map _
      | _ => exact .fault _
termination_by steps => sizeOf steps

theorem state_alike {c : Compiler} {written : List String} {name : String}
    {fields : Fields Document} {names : Names} {found : List Finding}
    (hshape : checkShape name fields = .ok ()) (h : Agrees written names found)
    (hsub : entryNames (.object fields) ⊆ written) :
    Alike written (c.state name names (.object fields))
      (read found ((branchingFaults name fields).map .wrong ++
        (places name fields).flatMap placeFindings)) := by
  rw [entryNames] at hsub
  rw [Compiler.state_object, branchingFaults, places]
  cases hs : Shape.of fields with
  | plain => exact .result h
  | parallel =>
      obtain ⟨branches, hb⟩ := branches_of_checkShape hs hshape
      have hlist : listAt? fields "Branches" = some branches := by rw [listAt?, hb]; rfl
      rw [hs, branchesNames_eq, hlist, Option.getD_some, ← eachBranchNames_eq] at hsub
      simp only [Compiler.branches_eq, hb, hlist, Option.getD_some]
      cases branches with
      | nil => exact .fault _
      | cons first others =>
          have := sizeOf_lt_of_get?_list hb
          have heach : Alike written (c.eachBranch name 0 names (first :: others)) _ :=
            eachBranch_alike h (List.append_subset.mp hsub).2
          simp only [Compiler.branchList_cons]
          exact ((heach.map Document.list).map some).map fun branches =>
            (fill .branches branches (fields.erase "Name")).insert "Type" (.string "Parallel")
  | choice =>
      rw [hs] at hsub
      obtain ⟨hyes, hno⟩ := List.append_subset.mp (List.append_subset.mp hsub).2
      rw [List.map_nil, List.nil_append, List.flatMap_append, read_append]
      refine (slot_alike h fun value hv => ?_).bind ?_
      · have := Fields.sizeOf_lt_of_get? hv
        exact subPlan_alike h (slotNames_of_get? hv ▸ hyes)
      intro whenTrue inner found' _ h'
      refine (slot_alike h' fun value hv => ?_).map fun whenFalse =>
        (fill .isFalse whenFalse (fill .isTrue whenTrue (fields.erase "Name"))).insert "Type"
          (.string "Choice")
      have := Fields.sizeOf_lt_of_get? hv
      exact subPlan_alike h' (slotNames_of_get? hv ▸ hno)
termination_by sizeOf fields

theorem eachBranch_alike {c : Compiler} {written : List String} {name : String} :
    ∀ {branches : List Document} {index : Nat} {names : Names} {found : List Finding},
    Agrees written names found →
    eachBranchNames branches ⊆ written →
    Alike written (c.eachBranch name index names branches)
      (read found ((branchPlaces name index branches).flatMap placeFindings))
  | [], _, _, _, h, _ => by
      rw [Compiler.eachBranch_nil]
      exact .result h
  | branch :: rest, index, names, found, h, hsub => by
      rw [eachBranchNames] at hsub
      obtain ⟨hbranch, hrest⟩ := List.append_subset.mp hsub
      rw [Compiler.eachBranch_cons, branchPlaces_cons, List.flatMap_cons, read_append]
      refine (subPlan_alike h hbranch).bind ?_
      intro graph inner found' _ h'
      exact (eachBranch_alike h' hrest).map _
termination_by branches => sizeOf branches

theorem subPlan_alike {c : Compiler} {written : List String} {name : String} {slot : Slot}
    {value : Document} {names : Names} {found : List Finding} (h : Agrees written names found)
    (hsub : listNames value ⊆ written) :
    Alike written (c.subPlan name slot names value) (read found (placeFindings ⟨name, slot, value⟩))
    := by
  cases value with
  | list steps =>
      rw [Compiler.subPlan_list]
      exact graph_alike (sequence_alike h hsub)
  | _ => exact .fault _
termination_by sizeOf value

end

/-! ## The whole plan -/

theorem agrees_ofPlan (plan : List Document) : Agrees (authoredNames plan) (.ofPlan plan) [] :=
  ⟨rfl, fun _ _ => by simp [Names.ofPlan]⟩

/-- The graph of a plan comes about like that of any list. -/
theorem Compiler.definition_eq (c : Compiler) (plan : List Document) :
    c.definition (.list plan) = (do
        let (states, names) ← c.sequence .root 0 none (.ofPlan plan) plan
        return (← graph .root states, names)) >>= fun result => pure result.1 := by
  rw [Compiler.definition_list]
  cases c.sequence .root 0 none (.ofPlan plan) plan with
  | error fault => rfl
  | ok result =>
      obtain ⟨states, names⟩ := result
      show graph .root states = (graph .root states >>= fun g => pure (g, names)) >>= _
      cases graph .root states with
      | error fault => rfl
      | ok definition => rfl

/-- A plan fails to compile where a reading of it stops, and with the same fault. -/
theorem definition_alike (c : Compiler) (plan : List Document) :
    (∃ fault, c.definition (.list plan) = .error fault ∧
      read [] (listFindings .root plan) = .error fault) ∨
    (∃ definition found, c.definition (.list plan) = .ok definition ∧
      read [] (listFindings .root plan) = .ok found) := by
  have hsequence : Alike (authoredNames plan) (c.sequence .root 0 none (.ofPlan plan) plan)
      (read [] (entriesFindings .root 0 none plan)) :=
    sequence_alike (agrees_ofPlan plan) (List.Subset.refl _)
  have h := graph_alike hsequence
  rw [c.definition_eq]
  generalize read [] (listFindings .root plan) = reading at h ⊢
  generalize (do
    let (states, names) ← c.sequence .root 0 none (.ofPlan plan) plan
    return (← graph .root states, names)) = run at h ⊢
  cases h with
  | fault fault => exact .inl ⟨fault, rfl, rfl⟩
  | result _ => exact .inr ⟨_, _, rfl, rfl⟩

/-- The fault of a compilation is the first that a reading of the plan comes across. -/
theorem definition_eq_error_iff {c : Compiler} {plan : List Document} {fault : Fault} :
    c.definition (.list plan) = .error fault ↔ FirstFault (listFindings .root plan) fault := by
  rw [← read_nil_eq_error]
  rcases definition_alike c plan with ⟨first, hd, hr⟩ | ⟨definition, found, hd, hr⟩
  · rw [hd, hr, Except.error.injEq, Except.error.injEq]
  · rw [hd, hr]
    exact ⟨nofun, nofun⟩

/-- A plan compiles if nothing that a reading comes across is wrong. -/
theorem exists_definition_iff_clean {c : Compiler} {plan : List Document} :
    (∃ definition, c.definition (.list plan) = .ok definition) ↔
      Clean (listFindings .root plan) := by
  have hread : Clean (listFindings .root plan) ↔
      ∃ found, read [] (listFindings .root plan) = .ok found := by
    simp only [read_eq_ok clean_nil, List.nil_append, exists_and_left, exists_eq, and_true]
  rw [hread]
  rcases definition_alike c plan with ⟨first, hd, hr⟩ | ⟨definition, found, hd, hr⟩
  · rw [hd, hr]
    exact ⟨nofun, nofun⟩
  · exact ⟨fun _ => ⟨found, hr⟩, fun _ => ⟨definition, hd⟩⟩

end StepGraph.Plan
