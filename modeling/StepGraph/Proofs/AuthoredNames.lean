/-
The names that are collected before a plan is compiled.

The collection goes through the fields of a step one by one; it finds what
the step's shape compiles and nothing else.  So it gives the names of the
steps of all lists of a plan.
-/
import StepGraph.Proofs.Nesting

namespace StepGraph.Plan

theorem authoredNames_eq (steps : List Document) :
    authoredNames steps = steps.flatMap entryNames := by
  induction steps with
  | nil => rfl
  | cons entry rest ih => rw [authoredNames, ih, List.flatMap_cons]

theorem listNames_eq (value : Document) :
    listNames value = (value.items?.map authoredNames).getD [] := by
  cases value with
  | list steps => rfl
  | _ => rfl

theorem slotNames_eq (slot : Slot) (fields : Fields Document) :
    slotNames slot fields = ((listAt? fields slot.text).map authoredNames).getD [] := by
  induction fields with
  | nil => rfl
  | cons field rest ih =>
      obtain ⟨key, value⟩ := field
      rw [slotNames, listAt?, Fields.get?_cons]
      by_cases hk : key = slot.text
      · rw [if_pos hk, if_pos hk, listNames_eq]
        rfl
      · rw [if_neg hk, if_neg hk]
        exact ih

theorem slotNames_of_get? {slot : Slot} {fields : Fields Document} {value : Document}
    (h : fields.get? slot.text = some value) : slotNames slot fields = listNames value := by
  rw [slotNames_eq, listAt?, h, listNames_eq]
  rfl

theorem eachBranchNames_eq (branches : List Document) :
    eachBranchNames branches = (branches.filterMap Document.items?).flatMap authoredNames := by
  induction branches with
  | nil => rfl
  | cons branch rest ih =>
      rw [eachBranchNames, ih, listNames_eq]
      cases hb : branch.items? with
      | none => rw [List.filterMap_cons_none hb]; rfl
      | some steps => rw [List.filterMap_cons_some hb, List.flatMap_cons]; rfl

theorem branchesNames_eq (fields : Fields Document) :
    branchesNames fields =
      (((listAt? fields "Branches").getD []).filterMap Document.items?).flatMap authoredNames := by
  induction fields with
  | nil => rfl
  | cons field rest ih =>
      obtain ⟨key, value⟩ := field
      have ht : Slot.branches.text = "Branches" := rfl
      rw [branchesNames, listAt?, Fields.get?_cons, ht]
      by_cases hk : key = "Branches"
      · rw [if_pos hk, if_pos hk]
        cases value with
        | list branches => exact eachBranchNames_eq branches
        | _ => rfl
      · rw [if_neg hk, if_neg hk]
        exact ih

theorem entryNames_object (fields : Fields Document) :
    entryNames (.object fields) =
      ownNames fields ++ (subLists fields).flatMap authoredNames := by
  rw [entryNames, subLists]
  cases Shape.of fields with
  | plain => rfl
  | parallel => exact congrArg (ownNames fields ++ ·) (branchesNames_eq fields)
  | choice =>
      simp only [slotNames_eq, Slot.text, List.flatMap_append]
      cases listAt? fields "IsTrue" <;> cases listAt? fields "IsFalse" <;> simp

theorem ownNames_eq (fields : Fields Document) :
    ownNames fields = ((Document.object fields).textAt? "Name").toList := by
  rw [ownNames, Document.textAt?, Document.field?]
  cases Fields.get? fields "Name" with
  | none => rfl
  | some value => cases value <;> rfl

theorem mem_ownNames_iff {fields : Fields Document} {name : String} :
    name ∈ ownNames fields ↔ (Document.object fields).textAt? "Name" = some name := by
  rw [ownNames_eq, Option.mem_toList]

theorem ownNames_of_named {fields : Fields Document} {name : String}
    (h : fields.get? "Name" = some (.string name)) : ownNames fields = [name] := by
  rw [ownNames, h]

theorem mem_entryNames_of_textAt? {entry : Document} {name : String}
    (h : entry.textAt? "Name" = some name) : name ∈ entryNames entry := by
  cases entry with
  | object fields =>
      rw [entryNames_object]
      exact List.mem_append_left _ (mem_ownNames_iff.mpr h)
  | _ => simp [Document.textAt?, Document.field?] at h

theorem ListIn.trans {plan middle steps : List Document} (h : ListIn plan middle)
    (h' : ListIn middle steps) : ListIn plan steps := by
  induction h' with
  | root => exact h
  | nested _ hf hs ih => exact ih.nested hf hs

theorem ListIn.authoredNames_subset {plan steps : List Document} (h : ListIn plan steps) :
    authoredNames steps ⊆ authoredNames plan := by
  induction h with
  | root => exact fun _ hn => hn
  | @nested steps sub fields _ hf hs ih =>
      intro name hn
      refine ih ?_
      rw [authoredNames_eq steps]
      refine List.mem_flatMap.mpr ⟨_, hf, ?_⟩
      rw [entryNames_object]
      exact List.mem_append_right _ (List.mem_flatMap.mpr ⟨sub, hs, hn⟩)

/-- What is collected of a list stands in it or in a list below it. -/
theorem authored_of_mem (plan : List Document) (name : String)
    (h : name ∈ authoredNames plan) : Authored plan name := by
  rw [authoredNames_eq] at h
  obtain ⟨entry, he, hn⟩ := List.mem_flatMap.mp h
  cases entry with
  | object fields =>
      rw [entryNames_object] at hn
      rcases List.mem_append.mp hn with hn | hn
      · exact ⟨plan, _, .root, he, mem_ownNames_iff.mp hn⟩
      · obtain ⟨sub, hs, hn⟩ := List.mem_flatMap.mp hn
        have hlt : sizeOf sub < sizeOf plan := by
          have h1 := sizeOf_lt_of_mem_subLists hs
          have h2 := List.sizeOf_lt_of_mem he
          simp only [Document.object.sizeOf_spec] at h2
          omega
        obtain ⟨steps, entry, hl, hm, ht⟩ := authored_of_mem sub name hn
        exact ⟨steps, entry, (ListIn.root.nested he hs).trans hl, hm, ht⟩
  | _ => simp [entryNames] at hn
termination_by sizeOf plan

/-- The collected names are those of the steps of all lists of the plan. -/
theorem mem_authoredNames_iff {plan : List Document} {name : String} :
    name ∈ authoredNames plan ↔ Authored plan name := by
  constructor
  · exact authored_of_mem plan name
  · rintro ⟨steps, entry, hl, hm, ht⟩
    refine hl.authoredNames_subset ?_
    rw [authoredNames_eq]
    exact List.mem_flatMap.mpr ⟨entry, hm, mem_entryNames_of_textAt? ht⟩

end StepGraph.Plan
