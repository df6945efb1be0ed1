/-
Plans with the types of their steps written out.

A step may leave its shape to the fields that it carries, or name it in its
`Type`.  `explicit` writes the type of every fan-out and every choice of a
plan, in all lists that are compiled.  The compiler asks for the shape of a
step in four places: when it collects names, when it checks the step, when it
makes the state, and when it looks for a merge step ahead.  In each of them a
shape that is written out is the same as one that is not; so the plan
compiles to the same graph or fails with the same fault.
-/
import StepGraph.Proofs.CompleteChain
import StepGraph.Proofs.Decompilation

namespace StepGraph

/-! ## Changing one field -/

namespace Fields

variable {α : Type}

/-- Applies a function to the value under a name, if there is one. -/
def modify (fields : Fields α) (name : String) (f : α → α) : Fields α :=
  match fields.get? name with
  | some value => fields.replace name (f value)
  | none => fields

theorem modify_of_get? {fields : Fields α} {name : String} {value : α} (f : α → α)
    (h : fields.get? name = some value) : fields.modify name f = fields.replace name (f value) := by
  rw [modify, h]

theorem modify_of_none {fields : Fields α} {name : String} (f : α → α)
    (h : fields.get? name = none) : fields.modify name f = fields := by
  rw [modify, h]

@[simp] theorem get?_modify_self (fields : Fields α) (name : String) (f : α → α) :
    (fields.modify name f).get? name = (fields.get? name).map f := by
  cases h : fields.get? name with
  | none => rw [modify_of_none f h, h]; rfl
  | some value => rw [modify_of_get? f h, get?_replace_self, h]; rfl

@[simp] theorem get?_modify_of_ne (fields : Fields α) {name other : String} (f : α → α)
    (h : name ≠ other) : (fields.modify name f).get? other = fields.get? other := by
  cases hv : fields.get? name with
  | none => rw [modify_of_none f hv]
  | some value => rw [modify_of_get? f hv, get?_replace_of_ne _ _ h]

theorem erase_modify_of_ne (fields : Fields α) {name other : String} (f : α → α)
    (h : name ≠ other) :
    (fields.modify name f).erase other = (fields.erase other).modify name f := by
  cases hv : fields.get? name with
  | none =>
      rw [modify_of_none f hv, modify_of_none f ((get?_erase_of_ne fields h.symm).trans hv)]
  | some value =>
      rw [modify_of_get? f hv, modify_of_get? f ((get?_erase_of_ne fields h.symm).trans hv),
        erase_replace_of_ne _ _ h]

/-- Whatever a value was changed to, another one stored in its place stays. -/
@[simp] theorem replace_modify (fields : Fields α) (name : String) (f : α → α) (new : α) :
    (fields.modify name f).replace name new = fields.replace name new := by
  cases hv : fields.get? name with
  | none => rw [modify_of_none f hv]
  | some value => rw [modify_of_get? f hv, replace_replace]

theorem replace_modify_of_ne (fields : Fields α) {name other : String} (f : α → α) (new : α)
    (h : name ≠ other) :
    (fields.modify name f).replace other new = (fields.replace other new).modify name f := by
  cases hv : fields.get? name with
  | none =>
      rw [modify_of_none f hv, modify_of_none f ((get?_replace_of_ne _ _ h.symm).trans hv)]
  | some value =>
      rw [modify_of_get? f hv, modify_of_get? f ((get?_replace_of_ne _ _ h.symm).trans hv),
        replace_comm _ _ _ h]

theorem modify_cons (key name : String) (value : α) (rest : Fields α) (f : α → α) :
    modify ((key, value) :: rest) name f =
      if key = name then (key, f value) :: rest else (key, value) :: rest.modify name f := by
  rw [modify, get?_cons]
  by_cases hk : key = name
  · rw [if_pos hk, if_pos hk]
    simp only [replace, if_pos hk]
  · rw [if_neg hk, if_neg hk, modify]
    cases rest.get? name with
    | none => rfl
    | some old => simp only [replace, if_neg hk]

theorem insert_insert (fields : Fields α) (name : String) (value new : α) :
    (fields.insert name value).insert name new = fields.insert name new := by
  induction fields with
  | nil => simp [insert]
  | cons field rest ih =>
      obtain ⟨key, old⟩ := field
      by_cases hk : key = name
      · simp [insert, hk]
      · simp [insert, hk, ih]

end Fields

namespace Plan

/-! ## Writing types out -/

mutual

/-- A list of entries with the types of its steps written out. -/
def explicitSteps : List Document → List Document
  | [] => []
  | entry :: rest => explicitStep entry :: explicitSteps rest

/-- A step with its type written out, and so the steps in the lists that its shape compiles.
A step with the fields of both shapes and no type is left as it is. -/
def explicitStep : Document → Document
  | .object fields =>
      if conflicts fields then .object fields
      else
        .object (writeShape (Shape.of fields) <|
          match Shape.of fields with
          | .plain => fields
          | .parallel => explicitBranches fields
          | .choice => explicitCases fields)
  | entry => entry

/-- The fields of a fan-out with the types in its branches written out. -/
def explicitBranches : List (String × Document) → List (String × Document)
  | [] => []
  | (key, value) :: rest =>
      if key = Slot.branches.text then (key, explicitBranchList value) :: rest
      else (key, value) :: explicitBranches rest

/-- The fields of a choice with the types in both of its lists written out. -/
def explicitCases : List (String × Document) → List (String × Document)
  | [] => []
  | (key, value) :: rest =>
      if key = "IsTrue" then (key, explicit value) :: explicitCase .isFalse rest
      else if key = "IsFalse" then (key, explicit value) :: explicitCase .isTrue rest
      else (key, value) :: explicitCases rest

/-- The fields of a choice with the types in one of its lists written out. -/
def explicitCase (slot : Slot) : List (String × Document) → List (String × Document)
  | [] => []
  | (key, value) :: rest =>
      if key = slot.text then (key, explicit value) :: rest
      else (key, value) :: explicitCase slot rest

/-- A list of branches with the types in each written out. -/
def explicitBranchList : Document → Document
  | .list branches => .list (explicitEach branches)
  | value => value

/-- Branches with the types in each written out. -/
def explicitEach : List Document → List Document
  | [] => []
  | branch :: rest => explicit branch :: explicitEach rest

/-- A plan, or a list in a plan, with the types of all its steps written out; what is no list is
left as it is. -/
def explicit : Document → Document
  | .list steps => .list (explicitSteps steps)
  | value => value

end

theorem explicitBranches_eq (fields : Fields Document) :
    explicitBranches fields = fields.modify "Branches" explicitBranchList := by
  induction fields with
  | nil => rfl
  | cons field rest ih =>
      obtain ⟨key, value⟩ := field
      rw [explicitBranches, Fields.modify_cons, ih]
      rfl

theorem explicitCase_eq (slot : Slot) (fields : Fields Document) :
    explicitCase slot fields = fields.modify slot.text explicit := by
  induction fields with
  | nil => rfl
  | cons field rest ih =>
      obtain ⟨key, value⟩ := field
      rw [explicitCase, Fields.modify_cons, ih]

theorem explicitCases_eq (fields : Fields Document) :
    explicitCases fields = (fields.modify "IsTrue" explicit).modify "IsFalse" explicit := by
  induction fields with
  | nil => rfl
  | cons field rest ih =>
      obtain ⟨key, value⟩ := field
      rw [explicitCases, explicitCase_eq, explicitCase_eq, ih, Fields.modify_cons, Slot.text,
        Slot.text]
      by_cases hy : key = "IsTrue"
      · have hf : key ≠ "IsFalse" := by rw [hy]; decide
        rw [if_pos hy, if_pos hy, Fields.modify_cons, if_neg hf]
      · rw [if_neg hy, if_neg hy, Fields.modify_cons]

/-- The fields of a step with its type written out. -/
def explicitFields (fields : Fields Document) : Fields Document :=
  match Shape.of fields with
  | .plain => fields
  | .parallel =>
      (fields.modify "Branches" explicitBranchList).insert "Type" (.string "Parallel")
  | .choice =>
      ((fields.modify "IsTrue" explicit).modify "IsFalse" explicit).insert "Type"
        (.string "Choice")

theorem explicitStep_of_conflicts {fields : Fields Document} (h : conflicts fields = true) :
    explicitStep (.object fields) = .object fields := by
  rw [explicitStep, if_pos h]

theorem explicitStep_object {fields : Fields Document} (h : conflicts fields = false) :
    explicitStep (.object fields) = .object (explicitFields fields) := by
  rw [explicitStep, if_neg (Bool.eq_false_iff.mp h), explicitFields]
  cases Shape.of fields with
  | plain => rfl
  | parallel => simp only [writeShape, explicitBranches_eq]
  | choice => simp only [writeShape, explicitCases_eq]

/-! ## What the compiler asks of a step -/

/-- A field that no shape looks at stays. -/
theorem get?_explicitFields (fields : Fields Document) {key : String}
    (hk : key ∉ ["Type", "Branches", "IsTrue", "IsFalse"]) :
    (explicitFields fields).get? key = fields.get? key := by
  simp only [List.mem_cons, List.not_mem_nil, or_false, not_or] at hk
  obtain ⟨ht, hb, hy, hf⟩ := hk
  rw [explicitFields]
  split
  · rfl
  · rw [Fields.get?_insert_of_ne _ _ (Ne.symm ht), Fields.get?_modify_of_ne _ _ (Ne.symm hb)]
  · rw [Fields.get?_insert_of_ne _ _ (Ne.symm ht), Fields.get?_modify_of_ne _ _ (Ne.symm hf),
      Fields.get?_modify_of_ne _ _ (Ne.symm hy)]

theorem shape_explicitFields (fields : Fields Document) :
    Shape.of (explicitFields fields) = Shape.of fields := by
  rw [explicitFields]
  cases hs : Shape.of fields with
  | plain => exact hs
  | parallel => simp [Shape.of, typeOf?, Document.text?]
  | choice => simp [Shape.of, typeOf?, Document.text?]

theorem conflicts_explicitFields {fields : Fields Document} (h : conflicts fields = false) :
    conflicts (explicitFields fields) = false := by
  rw [explicitFields]
  cases Shape.of fields with
  | plain => exact h
  | parallel => simp [conflicts, Fields.has]
  | choice => simp [conflicts, Fields.has]

/-- Whether a slot holds a list depends only on the kind of what is there. -/
theorem checkSlot_congr (name : String) {slot : Slot} {fields other : Fields Document}
    (h : (fields.get? slot.text).map Document.kind = (other.get? slot.text).map Document.kind) :
    checkSlot name slot fields = checkSlot name slot other := by
  have hkind : ∀ fields : Fields Document, checkSlot name slot fields =
      match (fields.get? slot.text).map Document.kind with
      | some .list => .ok ()
      | some found => .error (.notASubPlan name slot found)
      | none => .error (.notASubPlan name slot .nothing) := by
    intro fields
    rw [checkSlot]
    cases fields.get? slot.text with
    | none => rfl
    | some value => cases value <;> rfl
  rw [hkind, hkind, h]

theorem kind_explicit (value : Document) : (explicit value).kind = value.kind := by
  cases value <;> rfl

theorem kind_explicitBranchList (value : Document) :
    (explicitBranchList value).kind = value.kind := by
  cases value <;> rfl

/-- What stands in the slots that a shape wants, when types are written out. -/
theorem get?_branches_explicitFields {fields : Fields Document}
    (hs : Shape.of fields = .parallel) :
    (explicitFields fields).get? "Branches" =
      (fields.get? "Branches").map explicitBranchList := by
  rw [explicitFields, hs]
  simp

theorem get?_cases_explicitFields {fields : Fields Document} (hs : Shape.of fields = .choice)
    {slot : Slot} (hslot : slot = .isTrue ∨ slot = .isFalse) :
    (explicitFields fields).get? slot.text = (fields.get? slot.text).map explicit := by
  rw [explicitFields, hs]
  rcases hslot with rfl | rfl
  · simp [Slot.text]
  · simp [Slot.text]

theorem checkShape_explicitFields (name : String) {fields : Fields Document}
    (h : conflicts fields = false) :
    checkShape name (explicitFields fields) = checkShape name fields := by
  rw [checkShape, checkShape, h, conflicts_explicitFields h, shape_explicitFields]
  cases hs : Shape.of fields with
  | plain => rfl
  | parallel =>
      refine checkSlot_congr name ?_
      show ((explicitFields fields).get? "Branches").map _ = _
      rw [get?_branches_explicitFields hs, Option.map_map]
      exact congrArg (Option.map · _) (funext kind_explicitBranchList)
  | choice =>
      have hslot : ∀ slot : Slot, slot = .isTrue ∨ slot = .isFalse →
          checkSlot name slot (explicitFields fields) = checkSlot name slot fields ∧
            (explicitFields fields).has slot.text = fields.has slot.text := by
        intro slot hslot
        have hget := get?_cases_explicitFields hs hslot
        constructor
        · refine checkSlot_congr name ?_
          rw [hget, Option.map_map]
          exact congrArg (Option.map · _) (funext kind_explicit)
        · rw [Fields.has, Fields.has, hget, Option.isSome_map]
      obtain ⟨hyes, hhasYes⟩ := hslot .isTrue (.inl rfl)
      obtain ⟨hno, hhasNo⟩ := hslot .isFalse (.inr rfl)
      simp only [Slot.text] at hhasYes hhasNo
      simp only [hyes, hno, hhasYes, hhasNo]

theorem checkEntry_explicitStep (scope : Scope) (index : Nat) (after : Option String)
    (names : Names) (entry : Document) :
    checkEntry scope index after names (explicitStep entry) =
      checkEntry scope index after names entry := by
  cases entry with
  | object fields =>
      cases hc : conflicts fields with
      | true => rw [explicitStep_of_conflicts hc]
      | false =>
          have hname : ∀ scope index after,
              stepName scope index after (explicitFields fields) =
                stepName scope index after fields := by
            intro scope index after
            rw [stepName, stepName, get?_explicitFields fields (by decide)]
          have hchain : ∀ name, checkChain name (explicitFields fields) =
              checkChain name fields := by
            intro name
            rw [checkChain, checkChain, Fields.has, Fields.has, Fields.has, Fields.has,
              get?_explicitFields fields (by decide), get?_explicitFields fields (by decide)]
          rw [explicitStep_object hc, checkEntry_object, checkEntry_object, hname]
          simp only [hchain, checkShape_explicitFields _ hc]
  | _ => rfl

theorem isParallel_explicitStep (entry : Document) :
    isParallel (explicitStep entry) = isParallel entry := by
  cases entry with
  | object fields =>
      cases hc : conflicts fields with
      | true => rw [explicitStep_of_conflicts hc]
      | false =>
          rw [explicitStep_object hc, isParallel, isParallel, shape_explicitFields]
  | _ => rfl

/-- The type of a step that nests others names its shape, if it has one. -/
theorem typeOf?_of_nesting {fields : Fields Document} {type : String}
    (hs : Shape.of fields ≠ .plain) (ht : typeOf? fields = some type) :
    type = "Parallel" ∨ type = "Choice" := by
  rw [Shape.of, ht] at hs
  by_cases hp : type = "Parallel"
  · exact .inl hp
  · by_cases hc : type = "Choice"
    · exact .inr hc
    · simp [hp, hc] at hs

/-- Ahead of a fan-out a step of a type that names no shape is found in both spellings. -/
theorem hasType_explicitStep {type : String} (hp : type ≠ "Parallel") (hc : type ≠ "Choice")
    (entry : Document) : hasType type (explicitStep entry) = hasType type entry := by
  have hother : ∀ fields : Fields Document, Shape.of fields ≠ .plain →
      hasType type (.object fields) = false := by
    intro fields hs
    refine decide_eq_false fun ht => ?_
    rcases typeOf?_of_nesting hs ht with h | h
    · exact hp h
    · exact hc h
  cases entry with
  | object fields =>
      cases hconf : conflicts fields with
      | true => rw [explicitStep_of_conflicts hconf]
      | false =>
          rw [explicitStep_object hconf]
          by_cases hs : Shape.of fields = .plain
          · rw [explicitFields, hs]
          · rw [hother fields hs, hother _ (by rwa [shape_explicitFields])]
  | _ => rfl

theorem inserted_explicitStep {c : Compiler} (hp : c.mergeType ≠ "Parallel")
    (hc : c.mergeType ≠ "Choice") (name : String) (entry : Document) (rest : List Document)
    (names : Names) :
    c.inserted name (explicitStep entry) (explicitSteps rest) names =
      c.inserted name entry rest names := by
  have hnext : (explicitSteps rest).head?.any (hasType c.mergeType) =
      rest.head?.any (hasType c.mergeType) := by
    cases rest with
    | nil => rfl
    | cons next rest => exact hasType_explicitStep hp hc next
  rw [Compiler.inserted, Compiler.inserted, isParallel_explicitStep, hnext]

/-! ## Names -/

theorem branchesNames_explicitFields {fields : Fields Document}
    (hs : Shape.of fields = .parallel)
    (ih : ∀ branches, fields.get? "Branches" = some (.list branches) →
      eachBranchNames (explicitEach branches) = eachBranchNames branches) :
    branchesNames (explicitFields fields) = branchesNames fields := by
  rw [branchesNames_eq, branchesNames_eq, listAt?, listAt?, get?_branches_explicitFields hs]
  cases hb : fields.get? "Branches" with
  | none => rfl
  | some value =>
      cases value with
      | list branches =>
          have hnames := ih branches hb
          rw [eachBranchNames_eq, eachBranchNames_eq] at hnames
          exact hnames
      | _ => rfl

theorem slotNames_explicitFields {fields : Fields Document} (hs : Shape.of fields = .choice)
    {slot : Slot} (hslot : slot = .isTrue ∨ slot = .isFalse)
    (ih : ∀ value, fields.get? slot.text = some value →
      listNames (explicit value) = listNames value) :
    slotNames slot (explicitFields fields) = slotNames slot fields := by
  have hget := get?_cases_explicitFields hs hslot
  cases hv : fields.get? slot.text with
  | none =>
      rw [hv] at hget
      rw [slotNames_eq, slotNames_eq, listAt?, listAt?, hget, hv]
      rfl
  | some value =>
      rw [hv] at hget
      rw [slotNames_of_get? hget, slotNames_of_get? hv]
      exact ih value hv

mutual

theorem authoredNames_explicitSteps (steps : List Document) :
    authoredNames (explicitSteps steps) = authoredNames steps := by
  cases steps with
  | nil => rfl
  | cons entry rest =>
      rw [explicitSteps, authoredNames, authoredNames, entryNames_explicitStep entry,
        authoredNames_explicitSteps rest]
termination_by sizeOf steps

theorem entryNames_explicitStep : ∀ entry : Document,
    entryNames (explicitStep entry) = entryNames entry
  | .object fields => by
      cases hc : conflicts fields with
      | true => rw [explicitStep_of_conflicts hc]
      | false =>
          have hown : ownNames (explicitFields fields) = ownNames fields := by
            rw [ownNames, ownNames, get?_explicitFields fields (by decide)]
          rw [explicitStep_object hc, entryNames, entryNames, hown, shape_explicitFields]
          cases hs : Shape.of fields with
          | plain => rfl
          | parallel =>
              refine congrArg (ownNames fields ++ ·) (branchesNames_explicitFields hs ?_)
              intro branches hb
              have := sizeOf_lt_of_get?_list hb
              exact eachBranchNames_explicitEach branches
          | choice =>
              have hslot : ∀ slot : Slot, slot = .isTrue ∨ slot = .isFalse →
                  slotNames slot (explicitFields fields) = slotNames slot fields := by
                intro slot hslot
                refine slotNames_explicitFields hs hslot fun value hv => ?_
                have := Fields.sizeOf_lt_of_get? hv
                exact listNames_explicit value
              simp only [hslot .isTrue (.inl rfl), hslot .isFalse (.inr rfl)]
  | .null | .bool _ | .number _ | .string _ | .list _ => rfl
termination_by entry => sizeOf entry

theorem eachBranchNames_explicitEach (branches : List Document) :
    eachBranchNames (explicitEach branches) = eachBranchNames branches := by
  cases branches with
  | nil => rfl
  | cons branch rest =>
      rw [explicitEach, eachBranchNames, eachBranchNames, listNames_explicit branch,
        eachBranchNames_explicitEach rest]
termination_by sizeOf branches

theorem listNames_explicit : ∀ value : Document,
    listNames (explicit value) = listNames value
  | .list steps => by
      rw [explicit, listNames, listNames]
      exact authoredNames_explicitSteps steps
  | .null | .bool _ | .number _ | .string _ | .object _ => rfl
termination_by value => sizeOf value

end

/-! ## States -/

theorem fill_modify {slot : Slot} {compiled : Option Document} {fields : Fields Document}
    (f : Document → Document) (h : compiled = none → fields.get? slot.text = none) :
    fill slot compiled (fields.modify slot.text f) = fill slot compiled fields := by
  cases compiled with
  | none => exact Fields.modify_of_none f (h rfl)
  | some value => exact Fields.replace_modify fields slot.text f value

theorem fill_modify_of_ne {slot : Slot} {other : String} (compiled : Option Document)
    (fields : Fields Document) (f : Document → Document) (h : other ≠ slot.text) :
    fill slot compiled (fields.modify other f) =
      (fill slot compiled fields).modify other f := by
  cases compiled with
  | none => rfl
  | some value => exact Fields.replace_modify_of_ne fields f value h

theorem fill_insert {slot : Slot} {name : String} (compiled : Option Document)
    (fields : Fields Document) (value : Document) (h : name ≠ slot.text) :
    fill slot compiled (fields.insert name value) =
      (fill slot compiled fields).insert name value := by
  cases compiled with
  | none => rfl
  | some graph => exact Fields.replace_insert_of_ne fields value graph h

theorem get?_fill_of_ne {slot : Slot} {other : String} (compiled : Option Document)
    (fields : Fields Document) (h : slot.text ≠ other) :
    (fill slot compiled fields).get? other = fields.get? other := by
  cases compiled with
  | none => rfl
  | some graph => exact Fields.get?_replace_of_ne fields graph h

/-- The state of a fan-out has its graphs where the branches stood, and its type. -/
theorem fanOut_explicitFields {fields : Fields Document} (hs : Shape.of fields = .parallel)
    {branches : Option Document} (hb : branches = none → fields.get? "Branches" = none) :
    (fill .branches branches ((explicitFields fields).erase "Name")).insert "Type"
        (.string "Parallel") =
      (fill .branches branches (fields.erase "Name")).insert "Type" (.string "Parallel") := by
  have hnone : branches = none → (fields.erase "Name").get? Slot.branches.text = none := by
    intro h
    exact (Fields.get?_erase_of_ne fields (by decide)).trans (hb h)
  rw [explicitFields, hs]
  simp only
  rw [Fields.erase_insert_of_ne _ _ (by decide), Fields.erase_modify_of_ne _ _ (by decide),
    fill_insert _ _ _ (by decide), Fields.insert_insert]
  exact congrArg (Fields.insert · "Type" _) (fill_modify explicitBranchList hnone)

/-- The state of a choice has its graphs where the lists stood, and its type. -/
theorem choice_explicitFields {fields : Fields Document} (hs : Shape.of fields = .choice)
    {yes no : Option Document} (hy : yes = none → fields.get? "IsTrue" = none)
    (hn : no = none → fields.get? "IsFalse" = none) :
    (fill .isFalse no (fill .isTrue yes ((explicitFields fields).erase "Name"))).insert "Type"
        (.string "Choice") =
      (fill .isFalse no (fill .isTrue yes (fields.erase "Name"))).insert "Type"
        (.string "Choice") := by
  have hyes : yes = none → (fields.erase "Name").get? Slot.isTrue.text = none := by
    intro h
    exact (Fields.get?_erase_of_ne fields (by decide)).trans (hy h)
  have hno : no = none →
      (fill .isTrue yes (fields.erase "Name")).get? Slot.isFalse.text = none := by
    intro h
    rw [get?_fill_of_ne _ _ (by decide), Fields.get?_erase_of_ne fields (by decide)]
    exact hn h
  rw [explicitFields, hs]
  simp only
  rw [Fields.erase_insert_of_ne _ _ (by decide), Fields.erase_modify_of_ne _ _ (by decide),
    Fields.erase_modify_of_ne _ _ (by decide), fill_insert _ _ _ (by decide),
    fill_insert _ _ _ (by decide), Fields.insert_insert, fill_modify_of_ne _ _ _ (by decide)]
  refine congrArg (Fields.insert · "Type" _) ?_
  exact (congrArg (fun inner => fill .isFalse no (Fields.modify inner "IsFalse" explicit))
    (fill_modify explicit hyes)).trans (fill_modify explicit hno)

theorem Compiler.slot_eq_none {c : Compiler} {name : String} {slot : Slot}
    {names final : Names} {fields : Fields Document}
    (h : c.slot name slot names fields = .ok (none, final)) : fields.get? slot.text = none := by
  rw [c.slot_eq] at h
  cases hv : fields.get? slot.text with
  | none => rfl
  | some value =>
      rw [hv] at h
      obtain ⟨_, -, hpure⟩ := bind_eq_ok.mp h
      cases pure_eq_ok.mp hpure

theorem Compiler.branches_eq_none {c : Compiler} {name : String} {names final : Names}
    {fields : Fields Document} (h : c.branches name names fields = .ok (none, final)) :
    fields.get? "Branches" = none := by
  rw [c.branches_eq] at h
  cases hv : fields.get? "Branches" with
  | none => rfl
  | some value =>
      rw [hv] at h
      obtain ⟨_, -, hpure⟩ := bind_eq_ok.mp h
      cases pure_eq_ok.mp hpure

section Nested

variable {c : Compiler} {name : String} {fields : Fields Document}

theorem slot_explicitFields (hs : Shape.of fields = .choice) {slot : Slot}
    (hslot : slot = .isTrue ∨ slot = .isFalse)
    (ih : ∀ names value, fields.get? slot.text = some value →
      c.subPlan name slot names (explicit value) = c.subPlan name slot names value)
    (names : Names) :
    c.slot name slot names (explicitFields fields) = c.slot name slot names fields := by
  rw [c.slot_eq, c.slot_eq, get?_cases_explicitFields hs hslot]
  cases hv : fields.get? slot.text with
  | none => rfl
  | some value => simp only [Option.map_some, ih names value hv]

theorem branches_explicitFields (hs : Shape.of fields = .parallel)
    (ih : ∀ names branches, fields.get? "Branches" = some (.list branches) →
      c.eachBranch name 0 names (explicitEach branches) = c.eachBranch name 0 names branches)
    (names : Names) :
    c.branches name names (explicitFields fields) = c.branches name names fields := by
  rw [c.branches_eq, c.branches_eq, get?_branches_explicitFields hs]
  cases hv : fields.get? "Branches" with
  | none => rfl
  | some value =>
      cases value with
      | list branches =>
          cases branches with
          | nil => rfl
          | cons first rest =>
              have hall := ih names (first :: rest) hv
              rw [explicitEach] at hall
              simp only [Option.map_some, explicitBranchList, explicitEach,
                Compiler.branchList_cons, hall]
      | _ => rfl

/-- The state of a step is the same if the lists in it give the same graphs. -/
theorem state_explicitFields (hc : conflicts fields = false)
    (heach : ∀ names branches, fields.get? "Branches" = some (.list branches) →
      c.eachBranch name 0 names (explicitEach branches) = c.eachBranch name 0 names branches)
    (hsub : ∀ slot names value, fields.get? slot.text = some value →
      c.subPlan name slot names (explicit value) = c.subPlan name slot names value)
    (names : Names) :
    c.state name names (explicitStep (.object fields)) = c.state name names (.object fields) := by
  rw [explicitStep_object hc, Compiler.state_object, Compiler.state_object, shape_explicitFields]
  cases hs : Shape.of fields with
  | plain =>
      rw [explicitFields, hs]
  | parallel =>
      simp only [branches_explicitFields hs heach]
      cases hb : c.branches name names fields with
      | error fault => rfl
      | ok result =>
          obtain ⟨branches, final⟩ := result
          refine congrArg (fun state => Except.ok (state, final)) (fanOut_explicitFields hs ?_)
          rintro rfl
          exact Compiler.branches_eq_none hb
  | choice =>
      simp only [slot_explicitFields hs (.inl rfl) (hsub .isTrue),
        slot_explicitFields hs (.inr rfl) (hsub .isFalse)]
      cases hy : c.slot name .isTrue names fields with
      | error fault => rfl
      | ok result =>
          obtain ⟨yes, after⟩ := result
          show (c.slot name .isFalse after fields >>= _) = (c.slot name .isFalse after fields >>= _)
          cases hn : c.slot name .isFalse after fields with
          | error fault => rfl
          | ok result =>
              obtain ⟨no, final⟩ := result
              refine congrArg (fun state => Except.ok (state, final))
                (choice_explicitFields hs ?_ ?_)
              · rintro rfl
                exact Compiler.slot_eq_none hy
              · rintro rfl
                exact Compiler.slot_eq_none hn

end Nested

/-! ## Lists and plans -/

mutual

theorem sequence_explicitSteps {c : Compiler} (hp : c.mergeType ≠ "Parallel")
    (hc : c.mergeType ≠ "Choice") (scope : Scope) : ∀ (index : Nat) (after : Option String)
    (names : Names) (steps : List Document),
    c.sequence scope index after names (explicitSteps steps) =
      c.sequence scope index after names steps
  | _, _, _, [] => rfl
  | index, after, names, entry :: rest => by
      have hrest := fun after names =>
        sequence_explicitSteps hp hc scope (index + 1) after names rest
      have hstate := fun name names => state_explicitStep hp hc name names entry
      rw [explicitSteps, Compiler.sequence_cons, Compiler.sequence_cons, checkEntry_explicitStep]
      simp only [hstate, hrest, inserted_explicitStep hp hc]
termination_by _ _ _ steps => sizeOf steps

theorem state_explicitStep {c : Compiler} (hp : c.mergeType ≠ "Parallel")
    (hc : c.mergeType ≠ "Choice") (name : String) (names : Names) : ∀ entry : Document,
    c.state name names (explicitStep entry) = c.state name names entry
  | .object fields => by
      cases hconf : conflicts fields with
      | true => rw [explicitStep_of_conflicts hconf]
      | false =>
          refine state_explicitFields hconf ?_ ?_ names
          · intro names branches hb
            have := sizeOf_lt_of_get?_list hb
            exact eachBranch_explicitEach hp hc name 0 names branches
          · intro slot names value hv
            have := Fields.sizeOf_lt_of_get? hv
            exact subPlan_explicit hp hc name slot names value
  | .null | .bool _ | .number _ | .string _ | .list _ => rfl
termination_by entry => sizeOf entry

theorem eachBranch_explicitEach {c : Compiler} (hp : c.mergeType ≠ "Parallel")
    (hc : c.mergeType ≠ "Choice") (name : String) : ∀ (index : Nat) (names : Names)
    (branches : List Document),
    c.eachBranch name index names (explicitEach branches) =
      c.eachBranch name index names branches
  | _, _, [] => rfl
  | index, names, branch :: rest => by
      have hrest := fun names => eachBranch_explicitEach hp hc name (index + 1) names rest
      rw [explicitEach, Compiler.eachBranch_cons, Compiler.eachBranch_cons,
        subPlan_explicit hp hc name (.branch index) names branch]
      simp only [hrest]
termination_by _ _ branches => sizeOf branches

theorem subPlan_explicit {c : Compiler} (hp : c.mergeType ≠ "Parallel")
    (hc : c.mergeType ≠ "Choice") (name : String) (slot : Slot) (names : Names) :
    ∀ value : Document,
    c.subPlan name slot names (explicit value) = c.subPlan name slot names value
  | .list steps => by
      rw [explicit, Compiler.subPlan_list, Compiler.subPlan_list,
        sequence_explicitSteps hp hc (.slot name slot) 0 none names steps]
  | .null | .bool _ | .number _ | .string _ | .object _ => rfl
termination_by value => sizeOf value

end

/-- Unless merge steps have the type of a shape, a plan with its types written out compiles to the
same graph as the plan itself, or has the same fault. -/
theorem definition_explicit {c : Compiler} (hp : c.mergeType ≠ "Parallel")
    (hc : c.mergeType ≠ "Choice") (plan : Document) :
    c.definition (explicit plan) = c.definition plan := by
  cases plan with
  | list steps =>
      rw [explicit, Compiler.definition_list, Compiler.definition_list, Names.ofPlan, Names.ofPlan,
        authoredNames_explicitSteps, sequence_explicitSteps hp hc]
  | _ => rfl

/-- `forkedPlan` with its types written out: last, as no fan-out or choice in it has one. -/
def forkedExplicit : List Document :=
  [.object [("Name", .string "Fan"), ("Branches", .list
    [.list [.object [("Name", .string "FanMerge"), ("Type", .string "Job")]],
     .list [.object [("IsFalse", .list [.object [("Name", .string "No")]]),
       ("Name", .string "Check"),
       ("IsTrue", .list [.object [("Name", .string "Yes"), ("Type", .string "Job")]]),
       ("Type", .string "Choice")]]]),
    ("Type", .string "Parallel")]]

/-- Both spellings of the plan compile to the same graph. -/
theorem forkedExplicit_definition :
    ({} : Compiler).mergeType ≠ "Parallel" ∧ ({} : Compiler).mergeType ≠ "Choice" ∧
      explicit (.list forkedPlan) = .list forkedExplicit ∧
      ({} : Compiler).definition (explicit (.list forkedPlan)) = .ok forkedGraph := by
  have hp : ({} : Compiler).mergeType ≠ "Parallel" := by decide
  have hc : ({} : Compiler).mergeType ≠ "Choice" := by decide
  exact ⟨hp, hc, rfl, (definition_explicit hp hc (.list forkedPlan)).trans rfl⟩

end Plan

end StepGraph
