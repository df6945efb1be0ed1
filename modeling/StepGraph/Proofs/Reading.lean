/-
What a reading of a plan comes across.

A plan is read depth-first in authored order.  A list is looked at for being
empty, then its entries are read one after the other; of each entry first what
is wrong with the entry itself, then the lists that its shape wants, each in
its place.  An entry without a usable name is not read any further.

Nothing of this knows of states or of merge states: it is what an author finds
who goes through the plan with the rules at hand.
-/
import StepGraph.Proofs.AuthoredNames
import StepGraph.Proofs.Findings

namespace StepGraph.Plan

/-! ## One step -/

/-- The name of a step, if it is a text and not empty. -/
def usableName? (fields : Fields Document) : Option String :=
  match fields.get? "Name" with
  | some (.string name) => if name = "" then none else some name
  | _ => none

theorem usableName?_eq_some {fields : Fields Document} {name : String} :
    usableName? fields = some name ↔ fields.get? "Name" = some (.string name) ∧ name ≠ "" := by
  rw [usableName?]
  cases fields.get? "Name" with
  | none => simp
  | some value =>
      cases value with
      | string text =>
          by_cases he : text = ""
          · simp [he, eq_comm]
          · simp only [if_neg he, Option.some.injEq, Document.string.injEq]
            constructor
            · rintro rfl
              exact ⟨rfl, he⟩
            · intro h
              exact h.1
      | _ => simp

theorem conflicts_eq_true {fields : Fields Document} :
    conflicts fields = true ↔ fields.get? "Type" = none ∧ fields.get? "Branches" ≠ none ∧
      (fields.get? "IsTrue" ≠ none ∨ fields.get? "IsFalse" ≠ none) := by
  simp only [conflicts, hasChoiceField, Fields.has, Bool.and_eq_true, Bool.or_eq_true,
    Bool.not_eq_true', Option.isSome_eq_false_iff, Option.isNone_iff_eq_none,
    Option.isSome_iff_ne_none, and_assoc]

/-- What is wrong with the name of a step that has no usable one. -/
def nameFault (scope : Scope) (index : Nat) (after : Option String) (fields : Fields Document) :
    Fault :=
  if fields.has "Name" then .badName scope index else .unnamed scope after

/-- What is wrong with a step that says itself what follows it. -/
def chainFaults (name : String) (fields : Fields Document) : List Fault :=
  (["Next", "End"].filter fun key => fields.has key).map (.chained name)

/-- What is wrong with what stands where a list belongs. -/
def slotFaults (name : String) (slot : Slot) : Option Document → List Fault
  | some (.list _) => []
  | some other => [.notASubPlan name slot other.kind]
  | none => [.notASubPlan name slot .nothing]

/-- What is wrong with the fields that a step's shape needs. -/
def shapeFaults (name : String) (fields : Fields Document) : List Fault :=
  match Shape.of fields with
  | .plain => []
  | .parallel => slotFaults name .branches (fields.get? "Branches")
  | .choice =>
      match fields.get? "IsTrue" with
      | none => [.missingIsTrue name]
      | some whenTrue =>
          slotFaults name .isTrue (some whenTrue) ++
            (if fields.has "IsFalse" then slotFaults name .isFalse (fields.get? "IsFalse") else [])

/-- What is wrong with a fan-out that has no branches. -/
def branchingFaults (name : String) (fields : Fields Document) : List Fault :=
  match Shape.of fields, fields.get? "Branches" with
  | .parallel, some (.list []) => [.emptyList (.slot name .branches)]
  | _, _ => []

/-- What is wrong with a step itself before it is known whether it has branches. -/
def checkFaults (name : String) (fields : Fields Document) : List Fault :=
  chainFaults name fields ++
    ((if conflicts fields then [.conflictingShape name] else []) ++ shapeFaults name fields)

/-- What is wrong with a step itself, in the order in which it is looked at. -/
def stepFaults (name : String) (fields : Fields Document) : List Fault :=
  checkFaults name fields ++ branchingFaults name fields

/-- What an entry by itself gives rise to. -/
def entryFindings (scope : Scope) (index : Nat) (after : Option String) :
    Document → List Finding
  | .object fields =>
      match usableName? fields with
      | none => [.wrong (nameFault scope index after fields)]
      | some name => .step name :: (stepFaults name fields).map .wrong
  | entry => [.wrong (.notAStep scope index entry.kind)]

/-! ## The lists in a step -/

/-- A place in a step where a list is wanted, and what stands there. -/
structure Place where
  step : String
  slot : Slot
  content : Document

/-- The scope of a list that stands in a place. -/
def Place.scope (place : Place) : Scope := .slot place.step place.slot

/-- The list that stands in a place, if it is one. -/
def Place.list? (place : Place) : Option (List Document) := place.content.items?

/-- The places of branches from the one at `index` on. -/
def branchPlaces (name : String) (index : Nat) (branches : List Document) : List Place :=
  (branches.zipIdx index).map fun branch => ⟨name, .branch branch.2, branch.1⟩

/-- The places in a step where its shape wants lists, in the order in which they are read. -/
def places (name : String) (fields : Fields Document) : List Place :=
  match Shape.of fields with
  | .plain => []
  | .parallel => branchPlaces name 0 ((listAt? fields "Branches").getD [])
  | .choice =>
      (fields.get? "IsTrue").toList.map (Place.mk name .isTrue) ++
        (fields.get? "IsFalse").toList.map (Place.mk name .isFalse)

/-- The places in an entry, none if it has no usable name. -/
def entryPlaces : Document → List Place
  | .object fields =>
      match usableName? fields with
      | none => []
      | some name => places name fields
  | _ => []

theorem mem_branchPlaces {name : String} {index : Nat} {branches : List Document}
    {place : Place} (h : place ∈ branchPlaces name index branches) :
    ∃ i, place.step = name ∧ place.slot = .branch (index + i) ∧
      branches[i]? = some place.content := by
  obtain ⟨⟨branch, at'⟩, hm, rfl⟩ := List.mem_map.mp h
  obtain ⟨hle, hb⟩ := List.mem_zipIdx_iff_le_and_getElem?_sub.mp hm
  refine ⟨at' - index, rfl, ?_, hb⟩
  show Slot.branch at' = Slot.branch (index + (at' - index))
  rw [Nat.add_sub_cancel' hle]

theorem branchPlaces_cons (name : String) (index : Nat) (branch : Document)
    (rest : List Document) :
    branchPlaces name index (branch :: rest) =
      ⟨name, .branch index, branch⟩ :: branchPlaces name (index + 1) rest := by
  rw [branchPlaces, List.zipIdx_cons, List.map_cons]
  rfl

theorem filterMap_branchPlaces (name : String) (index : Nat) (branches : List Document) :
    (branchPlaces name index branches).filterMap Place.list? =
      branches.filterMap Document.items? := by
  induction branches generalizing index with
  | nil => rfl
  | cons branch rest ih =>
      rw [branchPlaces_cons, List.filterMap_cons, List.filterMap_cons, ih]
      rfl

theorem filterMap_slotPlace (name : String) (slot : Slot) (value : Option Document) :
    (value.toList.map (Place.mk name slot)).filterMap Place.list? =
      (value.bind Document.items?).toList := by
  cases value with
  | none => rfl
  | some value => cases value <;> rfl

/-- The lists in the places of a step are those that its shape compiles. -/
theorem subLists_eq_places (name : String) (fields : Fields Document) :
    subLists fields = (places name fields).filterMap Place.list? := by
  rw [subLists, places]
  cases Shape.of fields with
  | plain => rfl
  | parallel => exact (filterMap_branchPlaces name 0 _).symm
  | choice =>
      rw [List.filterMap_append, filterMap_slotPlace, filterMap_slotPlace]
      rfl

theorem sizeOf_lt_of_mem_places {name : String} {fields : Fields Document} {place : Place}
    (h : place ∈ places name fields) : sizeOf place.content < sizeOf fields := by
  unfold places at h
  split at h
  · simp at h
  · obtain ⟨i, -, -, hb⟩ := mem_branchPlaces h
    cases hl : listAt? fields "Branches" with
    | none => simp [hl] at hb
    | some branches =>
        rw [hl, Option.getD_some] at hb
        have h1 := sizeOf_lt_of_listAt? hl
        have h2 := List.sizeOf_lt_of_mem (List.mem_of_getElem? hb)
        omega
  · rcases List.mem_append.mp h with h | h
    · obtain ⟨value, hv, rfl⟩ := List.mem_map.mp h
      exact Fields.sizeOf_lt_of_get? (Option.mem_toList.mp hv)
    · obtain ⟨value, hv, rfl⟩ := List.mem_map.mp h
      exact Fields.sizeOf_lt_of_get? (Option.mem_toList.mp hv)

theorem sizeOf_lt_of_mem_entryPlaces {entry : Document} {place : Place}
    (h : place ∈ entryPlaces entry) : sizeOf place.content < sizeOf entry := by
  cases entry with
  | object fields =>
      rw [entryPlaces] at h
      split at h
      · simp at h
      · have := sizeOf_lt_of_mem_places h
        simp only [Document.object.sizeOf_spec]
        omega
  | _ => simp [entryPlaces] at h

theorem sizeOf_lt_cons_of_mem_entryPlaces {entry : Document} {place : Place}
    {steps : List Document} (h : place ∈ entryPlaces entry) (hc : place.content = .list steps)
    (rest : List Document) : sizeOf steps < sizeOf (entry :: rest) := by
  have hsize := sizeOf_lt_of_mem_entryPlaces h
  rw [hc, Document.list.sizeOf_spec] at hsize
  rw [List.cons.sizeOf_spec]
  omega

/-! ## Lists of entries -/

/-- What is wrong with a list that is empty. -/
def emptyFindings (scope : Scope) : List Document → List Finding
  | [] => [.wrong (.emptyList scope)]
  | _ :: _ => []

/-- What the entries from the one at `index` on give rise to; `after` is the name of the entry
in front of them. -/
def entriesFindings (scope : Scope) (index : Nat) (after : Option String) :
    List Document → List Finding
  | [] => []
  | entry :: rest =>
      entryFindings scope index after entry ++
        ((entryPlaces entry).attach.flatMap fun ⟨place, hp⟩ =>
          match hi : place.content.items? with
          | none => [.wrong (.notASubPlan place.step place.slot place.content.kind)]
          | some steps =>
              have : sizeOf steps < 1 + sizeOf entry + sizeOf rest := by
                have h1 := Document.sizeOf_lt_of_items? hi
                have h2 := sizeOf_lt_of_mem_entryPlaces hp
                omega
              emptyFindings place.scope steps ++ entriesFindings place.scope 0 none steps) ++
        entriesFindings scope (index + 1) (entry.textAt? "Name") rest
termination_by steps => sizeOf steps
decreasing_by
  · simp only [List.cons.sizeOf_spec]
    omega
  · simp only [List.cons.sizeOf_spec]
    omega

/-- What a list gives rise to. -/
def listFindings (scope : Scope) (steps : List Document) : List Finding :=
  emptyFindings scope steps ++ entriesFindings scope 0 none steps

/-- What a place gives rise to. -/
def placeFindings (place : Place) : List Finding :=
  match place.content with
  | .list steps => listFindings place.scope steps
  | other => [.wrong (.notASubPlan place.step place.slot other.kind)]

theorem entriesFindings_cons (scope : Scope) (index : Nat) (after : Option String)
    (entry : Document) (rest : List Document) :
    entriesFindings scope index after (entry :: rest) =
      entryFindings scope index after entry ++ (entryPlaces entry).flatMap placeFindings ++
        entriesFindings scope (index + 1) (entry.textAt? "Name") rest := by
  have hplace : ∀ place : Place,
      (match _hi : place.content.items? with
        | none => [.wrong (.notASubPlan place.step place.slot place.content.kind)]
        | some steps => emptyFindings place.scope steps ++ entriesFindings place.scope 0 none steps)
        = placeFindings place := by
    rintro ⟨step, slot, content⟩
    cases content <;> rfl
  rw [entriesFindings]
  simp only [hplace, List.flatMap_subtype, List.unattach_attach]

/-! ## The names that are come across -/

theorem stepsFound_faults (faults : List Fault) : stepsFound (faults.map .wrong) = [] := by
  induction faults with
  | nil => rfl
  | cons fault rest ih => exact ih

theorem stepsFound_emptyFindings (scope : Scope) (steps : List Document) :
    stepsFound (emptyFindings scope steps) = [] := by
  cases steps <;> rfl

theorem stepsFound_places_sublist (places : List Place)
    (h : ∀ place ∈ places, ∀ steps, place.content = .list steps →
      List.Sublist (stepsFound (entriesFindings place.scope 0 none steps)) (authoredNames steps)) :
    List.Sublist (stepsFound (places.flatMap placeFindings))
      ((places.filterMap Place.list?).flatMap authoredNames) := by
  induction places with
  | nil => exact .slnil
  | cons place rest ih =>
      have htail := ih fun place hp => h place (List.mem_cons_of_mem _ hp)
      rw [List.flatMap_cons, stepsFound_append, placeFindings]
      cases hc : place.content with
      | list steps =>
          have hi : place.list? = some steps := by rw [Place.list?, hc]; rfl
          show List.Sublist (stepsFound (listFindings place.scope steps) ++ _) _
          rw [List.filterMap_cons_some hi, List.flatMap_cons, listFindings, stepsFound_append,
            stepsFound_emptyFindings, List.nil_append]
          exact (h place List.mem_cons_self steps hc).append htail
      | _ =>
          have hi : place.list? = none := by rw [Place.list?, hc]; rfl
          rw [List.filterMap_cons_none hi]
          exact htail

theorem stepsFound_entry_sublist (scope : Scope) (index : Nat) (after : Option String)
    {entry : Document}
    (h : ∀ place ∈ entryPlaces entry, ∀ steps, place.content = .list steps →
      List.Sublist (stepsFound (entriesFindings place.scope 0 none steps)) (authoredNames steps)) :
    List.Sublist
      (stepsFound (entryFindings scope index after entry) ++
        stepsFound ((entryPlaces entry).flatMap placeFindings))
      (entryNames entry) := by
  have hplaces := stepsFound_places_sublist (entryPlaces entry) h
  cases entry with
  | object fields =>
      rw [entryNames_object]
      rw [entryPlaces] at hplaces ⊢
      rw [entryFindings]
      cases hu : usableName? fields with
      | none =>
          show List.Sublist ([] ++ []) _
          exact List.nil_sublist _
      | some name =>
          rw [hu] at hplaces
          have hown : ownNames fields =
              stepsFound (.step name :: (stepFaults name fields).map .wrong) :=
            (ownNames_of_named (usableName?_eq_some.mp hu).1).trans
              (congrArg (name :: ·) (stepsFound_faults _).symm)
          refine List.Sublist.append ?_ ?_
          · exact hown ▸ List.Sublist.refl _
          · rw [subLists_eq_places name]
            exact hplaces
  | _ => exact List.nil_sublist _

/-- The steps that are come across have names that were collected, in the same order. -/
theorem stepsFound_entriesFindings_sublist : ∀ (steps : List Document) (scope : Scope)
    (index : Nat) (after : Option String),
    List.Sublist (stepsFound (entriesFindings scope index after steps)) (authoredNames steps)
  | [], _, _, _ => by
      rw [entriesFindings]
      exact .slnil
  | entry :: rest, scope, index, after => by
      rw [entriesFindings_cons, stepsFound_append, stepsFound_append]
      refine List.Sublist.append ?_ (stepsFound_entriesFindings_sublist rest scope _ _)
      refine stepsFound_entry_sublist scope index after ?_
      intro place hp steps hc
      have := sizeOf_lt_cons_of_mem_entryPlaces hp hc rest
      exact stepsFound_entriesFindings_sublist steps place.scope 0 none
termination_by steps => sizeOf steps
decreasing_by
  · exact this
  · simp only [List.cons.sizeOf_spec]
    omega

theorem stepsFound_listFindings_sublist (scope : Scope) (steps : List Document) :
    List.Sublist (stepsFound (listFindings scope steps)) (authoredNames steps) := by
  rw [listFindings, stepsFound_append, stepsFound_emptyFindings, List.nil_append]
  exact stepsFound_entriesFindings_sublist steps scope 0 none

end StepGraph.Plan
