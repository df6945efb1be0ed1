/-
Where a fault is.

A fault names its place: a list by its scope, an entry by its number in the
list, a step by its name.  `Located` reads these back: it asks of the plan
whether such a list, entry or step is there and has what the fault says.  The
numbers and names are those of the authored lists, whatever states have been
inserted by the time the fault is met.
-/
import StepGraph.Proofs.FirstFault

namespace StepGraph.Plan

/-! ## Places in a plan -/

/-- What the shape of a step wants lists in, and what stands there. -/
inductive Holds (fields : Fields Document) : Slot → Document → Prop
  | branches {value : Document} :
      Shape.of fields = .parallel → fields.get? "Branches" = some value →
      Holds fields .branches value
  | branch {branches : List Document} {index : Nat} {value : Document} :
      Shape.of fields = .parallel → fields.get? "Branches" = some (.list branches) →
      branches[index]? = some value → Holds fields (.branch index) value
  | isTrue {value : Document} :
      Shape.of fields = .choice → fields.get? "IsTrue" = some value → Holds fields .isTrue value
  | isFalse {value : Document} :
      Shape.of fields = .choice → fields.get? "IsFalse" = some value → Holds fields .isFalse value

/-- The lists of a plan by what their scopes are called. -/
inductive ListAt (plan : List Document) : String → List Document → Prop
  | root : ListAt plan "DeploymentPlan" plan
  | branch {scope name : String} {steps sub : List Document} {fields : Fields Document}
      {index : Nat} :
      ListAt plan scope steps → .object fields ∈ steps →
      fields.get? "Name" = some (.string name) → Holds fields (.branch index) (.list sub) →
      ListAt plan (name ++ ".Branches[" ++ toString index ++ "]") sub
  | isTrue {scope name : String} {steps sub : List Document} {fields : Fields Document} :
      ListAt plan scope steps → .object fields ∈ steps →
      fields.get? "Name" = some (.string name) → Holds fields .isTrue (.list sub) →
      ListAt plan (name ++ ".IsTrue") sub
  | isFalse {scope name : String} {steps sub : List Document} {fields : Fields Document} :
      ListAt plan scope steps → .object fields ∈ steps →
      fields.get? "Name" = some (.string name) → Holds fields .isFalse (.list sub) →
      ListAt plan (name ++ ".IsFalse") sub

/-- A step of some list of a plan. -/
def StepNamed (plan : List Document) (name : String) (fields : Fields Document) : Prop :=
  ∃ scope steps, ListAt plan scope steps ∧ .object fields ∈ steps ∧
    fields.get? "Name" = some (.string name)

/-- The name of the entry in front of the one at an index. -/
def nameBefore (steps : List Document) : Nat → Option String
  | 0 => none
  | index + 1 => (steps[index]?).bind fun entry => entry.textAt? "Name"

/-- What a fault says of a plan is so, in the place that it names. -/
inductive Located (plan : List Document) : Fault → Prop
  | emptyList {scope : Scope} : ListAt plan scope.text [] → Located plan (.emptyList scope)
  | noBranches {name : String} {fields : Fields Document} :
      StepNamed plan name fields → Holds fields .branches (.list []) →
      Located plan (.emptyList (.slot name .branches))
  | notAStep {scope : Scope} {steps : List Document} {index : Nat} {entry : Document} :
      ListAt plan scope.text steps → steps[index]? = some entry → entry.fields? = none →
      Located plan (.notAStep scope index entry.kind)
  | unnamed {scope : Scope} {steps : List Document} {index : Nat} {fields : Fields Document} :
      ListAt plan scope.text steps → steps[index]? = some (.object fields) →
      fields.get? "Name" = none → Located plan (.unnamed scope (nameBefore steps index))
  | badName {scope : Scope} {steps : List Document} {index : Nat} {fields : Fields Document}
      {value : Document} :
      ListAt plan scope.text steps → steps[index]? = some (.object fields) →
      fields.get? "Name" = some value → (∀ name, value = .string name → name = "") →
      Located plan (.badName scope index)
  /-- Two steps have the name. -/
  | duplicateName {name : String} :
      List.Sublist [name, name] (authoredNames plan) → Located plan (.duplicateName name)
  | chained {name field : String} {fields : Fields Document} :
      StepNamed plan name fields → field = "Next" ∨ field = "End" → fields.get? field ≠ none →
      Located plan (.chained name field)
  | conflictingShape {name : String} {fields : Fields Document} :
      StepNamed plan name fields → fields.get? "Type" = none → fields.get? "Branches" ≠ none →
      fields.get? "IsTrue" ≠ none ∨ fields.get? "IsFalse" ≠ none →
      Located plan (.conflictingShape name)
  | missingIsTrue {name : String} {fields : Fields Document} :
      StepNamed plan name fields → Shape.of fields = .choice → fields.get? "IsTrue" = none →
      Located plan (.missingIsTrue name)
  | missingBranches {name : String} {fields : Fields Document} :
      StepNamed plan name fields → Shape.of fields = .parallel →
      fields.get? "Branches" = none → Located plan (.notASubPlan name .branches .nothing)
  | notASubPlan {name : String} {slot : Slot} {fields : Fields Document} {value : Document} :
      StepNamed plan name fields → Holds fields slot value → value.items? = none →
      Located plan (.notASubPlan name slot value.kind)

/-! ## The places that a reading goes to -/

theorem listAt?_eq_some {fields : Fields Document} {name : String} {items : List Document}
    (h : listAt? fields name = some items) : fields.get? name = some (.list items) := by
  obtain ⟨value, hv, hi⟩ := Option.bind_eq_some_iff.mp h
  cases value with
  | list items' =>
      obtain rfl := Option.some.inj hi
      exact hv
  | _ => simp [Document.items?] at hi

theorem holds_of_mem_places {name : String} {fields : Fields Document} {place : Place}
    (h : place ∈ places name fields) :
    place.step = name ∧ place.slot ≠ .branches ∧ Holds fields place.slot place.content := by
  rw [places] at h
  cases hs : Shape.of fields with
  | plain => simp [hs] at h
  | parallel =>
      rw [hs] at h
      obtain ⟨i, hstep, hslot, hb⟩ := mem_branchPlaces h
      rw [Nat.zero_add] at hslot
      cases hl : listAt? fields "Branches" with
      | none => simp [hl] at hb
      | some branches =>
          rw [hl, Option.getD_some] at hb
          rw [hslot]
          exact ⟨hstep, by simp, .branch hs (listAt?_eq_some hl) hb⟩
  | choice =>
      rw [hs] at h
      rcases List.mem_append.mp h with h | h
      · obtain ⟨value, hv, rfl⟩ := List.mem_map.mp h
        exact ⟨rfl, by simp, .isTrue hs (Option.mem_toList.mp hv)⟩
      · obtain ⟨value, hv, rfl⟩ := List.mem_map.mp h
        exact ⟨rfl, by simp, .isFalse hs (Option.mem_toList.mp hv)⟩

/-- A list in a place is called like its step and slot. -/
theorem ListAt.place {plan steps sub : List Document} {scope : String}
    {fields : Fields Document} {place : Place} (hl : ListAt plan scope steps)
    (hm : .object fields ∈ steps) (hn : fields.get? "Name" = some (.string place.step))
    (hs : place.slot ≠ .branches) (hh : Holds fields place.slot (.list sub)) :
    ListAt plan place.scope.text sub := by
  obtain ⟨name, slot, content⟩ := place
  cases slot with
  | branches => exact absurd rfl hs
  | branch index =>
      have htext : (Place.mk name (.branch index) content).scope.text =
          name ++ ".Branches[" ++ toString index ++ "]" := by
        show name ++ "." ++ ("Branches[" ++ toString index ++ "]") = _
        have hdot : ".Branches[" = "." ++ "Branches[" := rfl
        rw [hdot]
        simp only [String.append_assoc]
      rw [htext]
      exact .branch hl hm hn hh
  | isTrue =>
      have htext : (Place.mk name .isTrue content).scope.text = name ++ ".IsTrue" := by
        show name ++ "." ++ "IsTrue" = _
        rw [String.append_assoc]
        rfl
      rw [htext]
      exact .isTrue hl hm hn hh
  | isFalse =>
      have htext : (Place.mk name .isFalse content).scope.text = name ++ ".IsFalse" := by
        show name ++ "." ++ "IsFalse" = _
        rw [String.append_assoc]
        rfl
      rw [htext]
      exact .isFalse hl hm hn hh

/-! ## What is wrong is where it is said to be -/

section Step

variable {plan : List Document} {name : String} {fields : Fields Document} {fault : Fault}

theorem located_of_mem_chainFaults (hstep : StepNamed plan name fields)
    (h : fault ∈ chainFaults name fields) : Located plan fault := by
  obtain ⟨key, hk, rfl⟩ := List.mem_map.mp h
  obtain ⟨hkey, hhas⟩ := List.mem_filter.mp hk
  refine .chained hstep ?_ ?_
  · simpa using hkey
  · intro hnone
    rw [Fields.has, hnone] at hhas
    simp at hhas

theorem located_of_mem_slotFaults (hstep : StepNamed plan name fields) {slot : Slot}
    {value : Document} (hh : Holds fields slot value)
    (h : fault ∈ slotFaults name slot (some value)) : Located plan fault := by
  cases value with
  | list items => simp [slotFaults] at h
  | _ =>
      obtain rfl := List.mem_singleton.mp h
      exact .notASubPlan hstep hh rfl

theorem located_of_mem_shapeFaults (hstep : StepNamed plan name fields)
    (h : fault ∈ shapeFaults name fields) : Located plan fault := by
  unfold shapeFaults at h
  split at h
  · simp at h
  · rename_i hs
    cases hb : fields.get? "Branches" with
    | none =>
        rw [hb] at h
        obtain rfl := List.mem_singleton.mp h
        exact .missingBranches hstep hs hb
    | some value =>
        rw [hb] at h
        exact located_of_mem_slotFaults hstep (.branches hs hb) h
  · rename_i hs
    split at h
    · rename_i ht
      obtain rfl := List.mem_singleton.mp h
      exact .missingIsTrue hstep hs ht
    · rename_i whenTrue ht
      rcases List.mem_append.mp h with h | h
      · exact located_of_mem_slotFaults hstep (.isTrue hs ht) h
      · split at h
        · rename_i hf
          obtain ⟨whenFalse, hf⟩ := Option.isSome_iff_exists.mp hf
          rw [hf] at h
          exact located_of_mem_slotFaults hstep (.isFalse hs hf) h
        · simp at h

theorem located_of_mem_branchingFaults (hstep : StepNamed plan name fields)
    (h : fault ∈ branchingFaults name fields) : Located plan fault := by
  unfold branchingFaults at h
  split at h
  · rename_i hs hb
    obtain rfl := List.mem_singleton.mp h
    exact .noBranches hstep (.branches hs hb)
  · simp at h

theorem located_of_conflicts (hstep : StepNamed plan name fields) (h : conflicts fields = true) :
    Located plan (.conflictingShape name) := by
  obtain ⟨ht, hb, hc⟩ := conflicts_eq_true.mp h
  exact .conflictingShape hstep ht hb hc

theorem located_of_mem_stepFaults (hstep : StepNamed plan name fields)
    (h : fault ∈ stepFaults name fields) : Located plan fault := by
  rcases List.mem_append.mp h with h | h
  · rcases List.mem_append.mp h with h | h
    · exact located_of_mem_chainFaults hstep h
    · rcases List.mem_append.mp h with h | h
      · by_cases hc : conflicts fields = true
        · rw [if_pos hc] at h
          obtain rfl := List.mem_singleton.mp h
          exact located_of_conflicts hstep hc
        · rw [if_neg hc] at h
          simp at h
      · exact located_of_mem_shapeFaults hstep h
  · exact located_of_mem_branchingFaults hstep h

end Step

section Entry

variable {plan steps : List Document} {scope : Scope} {index : Nat} {fault : Fault}

theorem located_nameFault (hl : ListAt plan scope.text steps) {fields : Fields Document}
    (hi : steps[index]? = some (.object fields)) (hu : usableName? fields = none) :
    Located plan (nameFault scope index (nameBefore steps index) fields) := by
  rw [nameFault, Fields.has]
  rw [usableName?] at hu
  cases hn : fields.get? "Name" with
  | none => exact .unnamed hl hi hn
  | some value =>
      refine .badName hl hi hn ?_
      rintro name rfl
      simpa [hn] using hu

theorem located_of_mem_entryFindings (hl : ListAt plan scope.text steps) {entry : Document}
    (hi : steps[index]? = some entry)
    (h : .wrong fault ∈ entryFindings scope index (nameBefore steps index) entry) :
    Located plan fault := by
  cases entry with
  | object fields =>
      rw [entryFindings] at h
      cases hu : usableName? fields with
      | none =>
          rw [hu] at h
          obtain rfl := Finding.wrong.inj (List.mem_singleton.mp h)
          exact located_nameFault hl hi hu
      | some name =>
          rw [hu] at h
          obtain ⟨hn, -⟩ := usableName?_eq_some.mp hu
          have hstep : StepNamed plan name fields := ⟨_, _, hl, List.mem_of_getElem? hi, hn⟩
          rcases List.mem_cons.mp h with h | h
          · cases h
          · obtain ⟨fault', hf, he⟩ := List.mem_map.mp h
            obtain rfl := Finding.wrong.inj he
            exact located_of_mem_stepFaults hstep hf
  | _ =>
      obtain rfl := Finding.wrong.inj (List.mem_singleton.mp h)
      exact .notAStep hl hi rfl

end Entry

/-- The place of an entry is one of its step, where it holds what stands there. -/
theorem holds_of_mem_entryPlaces {entry : Document} {place : Place}
    (h : place ∈ entryPlaces entry) :
    ∃ fields : Fields Document, entry = .object fields ∧
      fields.get? "Name" = some (.string place.step) ∧
      place.slot ≠ .branches ∧ Holds fields place.slot place.content := by
  cases entry with
  | object fields =>
      rw [entryPlaces] at h
      cases hu : usableName? fields with
      | none => simp [hu] at h
      | some name =>
          rw [hu] at h
          obtain ⟨rfl, hs, hh⟩ := holds_of_mem_places h
          exact ⟨fields, rfl, (usableName?_eq_some.mp hu).1, hs, hh⟩
  | _ => simp [entryPlaces] at h

theorem located_of_mem_emptyFindings {plan steps : List Document} {scope : Scope}
    {fault : Fault} (hl : ListAt plan scope.text steps)
    (h : .wrong fault ∈ emptyFindings scope steps) : Located plan fault := by
  cases steps with
  | nil =>
      obtain rfl := Finding.wrong.inj (List.mem_singleton.mp h)
      exact .emptyList hl
  | cons first others => simp [emptyFindings] at h

/-- What is wrong with a place of an entry is in that place or, if there is a list, in the list. -/
theorem located_of_mem_placeFindings {plan steps : List Document} {scope : String}
    {entry : Document} {place : Place} {fault : Fault} (hl : ListAt plan scope steps)
    (he : entry ∈ steps) (hp : place ∈ entryPlaces entry)
    (hbelow : ∀ sub, place.content = .list sub → ListAt plan place.scope.text sub →
      .wrong fault ∈ entriesFindings place.scope 0 none sub → Located plan fault)
    (h : .wrong fault ∈ placeFindings place) : Located plan fault := by
  obtain ⟨fields, rfl, hn, hs, hh⟩ := holds_of_mem_entryPlaces hp
  cases hc : place.content with
  | list sub =>
      rw [hc] at hh
      have hsub := hl.place he hn hs hh
      rw [placeFindings, hc] at h
      rcases List.mem_append.mp h with h | h
      · exact located_of_mem_emptyFindings hsub h
      · exact hbelow sub hc hsub h
  | _ =>
      rw [placeFindings, hc] at h
      obtain rfl := Finding.wrong.inj (List.mem_singleton.mp h)
      exact .notASubPlan ⟨_, _, hl, he, hn⟩ (hc ▸ hh) rfl

/-- What is wrong among the entries behind some of a list is where it is said to be. -/
theorem located_of_mem_entriesFindings {plan : List Document} {fault : Fault} :
    ∀ (rest before : List Document) (scope : Scope), ListAt plan scope.text (before ++ rest) →
    .wrong fault ∈ entriesFindings scope before.length
      (nameBefore (before ++ rest) before.length) rest → Located plan fault
  | [], _, _, _, h => by simp [entriesFindings] at h
  | entry :: rest, before, scope, hl, h => by
      have hi : (before ++ entry :: rest)[before.length]? = some entry := by simp
      rw [entriesFindings_cons] at h
      rcases List.mem_append.mp h with h | h
      · rcases List.mem_append.mp h with h | h
        · exact located_of_mem_entryFindings hl hi h
        · obtain ⟨place, hp, hfault⟩ := List.mem_flatMap.mp h
          refine located_of_mem_placeFindings hl (List.mem_of_getElem? hi) hp ?_ hfault
          intro sub hc hsub hwrong
          have := sizeOf_lt_cons_of_mem_entryPlaces hp hc rest
          exact located_of_mem_entriesFindings sub [] place.scope hsub hwrong
      · -- the entry joins those in front, and its name is the one in front of the next
        have hb : before ++ entry :: rest = (before ++ [entry]) ++ rest := List.append_cons ..
        have hname : nameBefore (before ++ entry :: rest) (before.length + 1) =
            entry.textAt? "Name" := by
          rw [nameBefore, hi]
          rfl
        have hlength : before.length + 1 = (before ++ [entry]).length := by simp
        rw [← hname, hlength, hb] at h
        exact located_of_mem_entriesFindings rest (before ++ [entry]) scope (hb ▸ hl) h
termination_by rest => sizeOf rest
decreasing_by
  · exact this
  · simp only [List.cons.sizeOf_spec]
    omega

/-- What a reading of a plan comes across is where it is said to be. -/
theorem located_of_mem_listFindings {plan : List Document} {fault : Fault}
    (h : .wrong fault ∈ listFindings .root plan) : Located plan fault := by
  rcases List.mem_append.mp h with h | h
  · exact located_of_mem_emptyFindings .root h
  · exact located_of_mem_entriesFindings plan [] .root .root h

/-- A name that was come across twice was written twice. -/
theorem located_of_firstFault {plan : List Document} {fault : Fault}
    (h : FirstFault (listFindings .root plan) fault) : Located plan fault := by
  obtain ⟨before, finding, behind, he, -, hf⟩ := h
  cases finding with
  | wrong first =>
      obtain rfl := Option.some.inj hf
      refine located_of_mem_listFindings ?_
      rw [he]
      exact List.mem_append_right _ List.mem_cons_self
  | step name =>
      rw [Finding.fault?] at hf
      split at hf
      · rename_i hm
        obtain rfl := Option.some.inj hf
        refine .duplicateName (List.Sublist.trans ?_ (stepsFound_listFindings_sublist .root plan))
        rw [he, stepsFound_append]
        show List.Sublist ([name] ++ [name]) _
        refine List.Sublist.append ?_ ?_
        · exact List.singleton_sublist.mpr (mem_stepsFound_iff.mpr hm)
        · exact List.singleton_sublist.mpr (mem_stepsFound_iff.mpr List.mem_cons_self)
      · simp at hf

/-- The fault of a compilation is the first that a reading of the plan comes across, and it is
where it is said to be. -/
theorem definition_fault_iff (c : Compiler) (plan : List Document) (fault : Fault) :
    c.definition (.list plan) = .error fault ↔
      FirstFault (listFindings .root plan) fault ∧ Located plan fault := by
  rw [definition_eq_error_iff]
  exact ⟨fun h => ⟨h, located_of_firstFault h⟩, fun h => h.1⟩

-- the second step of a branch has no name; a merge state behind `Inner` does not count
example : ({} : Compiler).definition (.list
    [.object [("Name", .string "Outer"), ("Branches", .list
      [.list [.object [("Name", .string "Inner"), ("Branches", .list
          [.list [.object [("Name", .string "Leaf")]]])],
        .object [("Type", .string "Job")]]])]]) =
    .error (.unnamed (.slot "Outer" (.branch 0)) (some "Inner")) := rfl

end StepGraph.Plan
