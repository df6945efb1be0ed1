/-
The plans that compile.

A plan compiles if it is well-formed: its lists are not empty, every entry of
every list is a sound step, and no two steps have the same name.  Nothing is
asked of lists that the shape of their step does not compile, and nothing
depends on the settings of the compiler.
-/
import StepGraph.Proofs.FaultPlaces
import StepGraph.Proofs.NamePartition

namespace StepGraph.Plan

/-! ## Well-formed plans -/

/-- A list of entries that is not empty. -/
def IsStepList (value : Document) : Prop := ∃ steps, value = .list steps ∧ steps ≠ []

/-- A step as it has to be by itself.  What its lists hold is not looked at, only that they are
there where its shape wants them. -/
structure SoundStep (fields : Fields Document) : Prop where
  named : ∃ name, fields.get? "Name" = some (.string name) ∧ name ≠ ""
  noNext : fields.get? "Next" = none
  noEnd : fields.get? "End" = none
  oneShape : ¬ (fields.get? "Type" = none ∧ fields.get? "Branches" ≠ none ∧
    (fields.get? "IsTrue" ≠ none ∨ fields.get? "IsFalse" ≠ none))
  branches : Shape.of fields = .parallel → ∃ branches,
    fields.get? "Branches" = some (.list branches) ∧ branches ≠ [] ∧
      ∀ branch ∈ branches, IsStepList branch
  whenTrue : Shape.of fields = .choice →
    ∃ value, fields.get? "IsTrue" = some value ∧ IsStepList value
  whenFalse : Shape.of fields = .choice →
    ∀ value, fields.get? "IsFalse" = some value → IsStepList value

/-- An entry that is a sound step. -/
def SoundEntry (entry : Document) : Prop := ∃ fields, entry = .object fields ∧ SoundStep fields

/-- The entries of all lists of a plan, each in front of those in its lists. -/
def allSteps (steps : List Document) : List Document :=
  steps.attach.flatMap fun ⟨entry, he⟩ =>
    entry :: (entryLists entry).attach.flatMap fun ⟨sub, hs⟩ =>
      have : sizeOf sub < sizeOf steps :=
        Nat.lt_trans (sizeOf_lt_of_mem_entryLists hs) (List.sizeOf_lt_of_mem he)
      allSteps sub
termination_by sizeOf steps

/-- A plan whose lists are not empty, whose entries are sound steps, and whose steps differ in
name. -/
structure WellFormed (plan : List Document) : Prop where
  nonempty : plan ≠ []
  sound : ∀ steps, ListIn plan steps → ∀ entry ∈ steps, SoundEntry entry
  distinct : (allSteps plan).Pairwise fun entry other =>
    entry.textAt? "Name" ≠ other.textAt? "Name"

/-! ## All entries of a plan -/

theorem allSteps_eq (steps : List Document) :
    allSteps steps = steps.flatMap fun entry => entry :: (entryLists entry).flatMap allSteps := by
  rw [allSteps]
  simp only [List.flatMap_subtype, List.unattach_attach]

theorem allSteps_cons (entry : Document) (rest : List Document) :
    allSteps (entry :: rest) =
      entry :: (entryLists entry).flatMap allSteps ++ allSteps rest := by
  rw [allSteps_eq, List.flatMap_cons, ← allSteps_eq]

theorem ListIn.allSteps_subset {plan steps : List Document} (h : ListIn plan steps) :
    allSteps steps ⊆ allSteps plan := by
  induction h with
  | root => exact List.Subset.refl _
  | @nested steps sub fields _ hf hs ih =>
      intro entry he
      refine ih ?_
      rw [allSteps_eq]
      refine List.mem_flatMap.mpr ⟨_, hf, List.mem_cons_of_mem _ ?_⟩
      exact List.mem_flatMap.mpr ⟨sub, hs, he⟩

theorem exists_listIn_of_mem_allSteps (plan : List Document) (entry : Document)
    (h : entry ∈ allSteps plan) : ∃ steps, ListIn plan steps ∧ entry ∈ steps := by
  rw [allSteps_eq] at h
  obtain ⟨top, ht, h⟩ := List.mem_flatMap.mp h
  rcases List.mem_cons.mp h with rfl | h
  · exact ⟨plan, .root, ht⟩
  · obtain ⟨sub, hs, h⟩ := List.mem_flatMap.mp h
    have : sizeOf sub < sizeOf plan :=
      Nat.lt_trans (sizeOf_lt_of_mem_entryLists hs) (List.sizeOf_lt_of_mem ht)
    obtain ⟨steps, hl, he⟩ := exists_listIn_of_mem_allSteps sub entry h
    cases top with
    | object fields => exact ⟨steps, (ListIn.root.nested ht hs).trans hl, he⟩
    | _ => simp [entryLists] at hs
termination_by sizeOf plan

/-- The entries of a plan are those of its lists. -/
theorem mem_allSteps_iff {plan : List Document} {entry : Document} :
    entry ∈ allSteps plan ↔ ∃ steps, ListIn plan steps ∧ entry ∈ steps := by
  constructor
  · exact exists_listIn_of_mem_allSteps plan entry
  · rintro ⟨steps, hl, he⟩
    refine hl.allSteps_subset ?_
    rw [allSteps_eq]
    exact List.mem_flatMap.mpr ⟨entry, he, List.mem_cons_self⟩

/-- The names that are collected from a plan are those of its entries, in their order. -/
theorem authoredNames_eq_allSteps : ∀ steps : List Document,
    authoredNames steps = (allSteps steps).filterMap fun entry => entry.textAt? "Name"
  | [] => by
      rw [allSteps_eq]
      rfl
  | entry :: rest => by
      have hrest := authoredNames_eq_allSteps rest
      have hlists : (entryLists entry).flatMap authoredNames =
          ((entryLists entry).flatMap allSteps).filterMap fun entry => entry.textAt? "Name" := by
        rw [List.filterMap_flatMap]
        refine List.flatMap_congr fun sub hs => ?_
        have : sizeOf sub < sizeOf (entry :: rest) := sizeOf_lt_cons_of_mem_entryLists hs rest
        exact authoredNames_eq_allSteps sub
      rw [allSteps_cons, authoredNames, hrest, List.filterMap_append]
      refine congrArg (· ++ _) ?_
      cases entry with
      | object fields =>
          rw [entryNames_object, ← entryLists, hlists, ownNames_eq]
          cases ht : (Document.object fields).textAt? "Name" with
          | none => simp [ht]
          | some name => simp [ht]
      | _ => rfl
termination_by steps => sizeOf steps
decreasing_by
  · simp only [List.cons.sizeOf_spec]
    omega
  · exact this

/-! ## Sound steps -/

theorem chainFaults_eq_nil {name : String} {fields : Fields Document} :
    chainFaults name fields = [] ↔ fields.get? "Next" = none ∧ fields.get? "End" = none := by
  rw [chainFaults, List.map_eq_nil_iff, List.filter_eq_nil_iff]
  simp [Fields.has]

theorem conflicts_eq_false {fields : Fields Document} :
    conflicts fields = false ↔
      ¬ (fields.get? "Type" = none ∧ fields.get? "Branches" ≠ none ∧
        (fields.get? "IsTrue" ≠ none ∨ fields.get? "IsFalse" ≠ none)) := by
  rw [← Bool.not_eq_true, conflicts_eq_true]

theorem slotFaults_eq_nil {name : String} {slot : Slot} {value : Option Document} :
    slotFaults name slot value = [] ↔ ∃ items, value = some (.list items) := by
  cases value with
  | none => simp [slotFaults]
  | some value => cases value <;> simp [slotFaults]

theorem forall_mem_branchPlaces {name : String} {index : Nat} {branches : List Document}
    {p : Document → Prop} :
    (∀ place ∈ branchPlaces name index branches, p place.content) ↔
      ∀ branch ∈ branches, p branch := by
  induction branches generalizing index with
  | nil => simp [branchPlaces]
  | cons branch rest ih =>
      rw [branchPlaces_cons, List.forall_mem_cons, List.forall_mem_cons, ih]

theorem stepFaults_eq_nil {name : String} {fields : Fields Document} :
    stepFaults name fields = [] ↔
      chainFaults name fields = [] ∧ conflicts fields = false ∧ shapeFaults name fields = [] ∧
        branchingFaults name fields = [] := by
  simp only [stepFaults, checkFaults, List.append_eq_nil_iff, and_assoc]
  by_cases hc : conflicts fields = true
  · simp [hc]
  · simp [hc]

/-- Branches are right if nothing is found wrong with them and every place holds entries. -/
theorem branches_sound_iff {name : String} {fields : Fields Document}
    (hs : Shape.of fields = .parallel) :
    (shapeFaults name fields = [] ∧ branchingFaults name fields = [] ∧
      ∀ place ∈ places name fields, IsStepList place.content) ↔
    ∃ branches, fields.get? "Branches" = some (.list branches) ∧ branches ≠ [] ∧
      ∀ branch ∈ branches, IsStepList branch := by
  rw [shapeFaults, branchingFaults, places, hs]
  simp only [slotFaults_eq_nil]
  constructor
  · rintro ⟨⟨branches, hb⟩, hne, hplaces⟩
    have hlist : listAt? fields "Branches" = some branches := by rw [listAt?, hb]; rfl
    rw [hlist, Option.getD_some, forall_mem_branchPlaces] at hplaces
    refine ⟨branches, hb, ?_, hplaces⟩
    rintro rfl
    simp [hb] at hne
  · rintro ⟨branches, hb, hne, hbranches⟩
    have hlist : listAt? fields "Branches" = some branches := by rw [listAt?, hb]; rfl
    rw [hlist, Option.getD_some, forall_mem_branchPlaces]
    refine ⟨⟨branches, hb⟩, ?_, hbranches⟩
    cases branches with
    | nil => exact absurd rfl hne
    | cons first others => rw [hb]

/-- The lists of a choice are right if nothing is found wrong with them and every place holds
entries. -/
theorem choice_sound_iff {name : String} {fields : Fields Document}
    (hs : Shape.of fields = .choice) :
    (shapeFaults name fields = [] ∧ branchingFaults name fields = [] ∧
      ∀ place ∈ places name fields, IsStepList place.content) ↔
    (∃ value, fields.get? "IsTrue" = some value ∧ IsStepList value) ∧
      ∀ value, fields.get? "IsFalse" = some value → IsStepList value := by
  have hplaces : (∀ place ∈ places name fields, IsStepList place.content) ↔
      (∀ value, fields.get? "IsTrue" = some value → IsStepList value) ∧
        ∀ value, fields.get? "IsFalse" = some value → IsStepList value := by
    rw [places, hs]
    simp only [List.forall_mem_append, List.forall_mem_map, Option.mem_toList]
  have hbranching : branchingFaults name fields = [] := by
    rw [branchingFaults, hs]
  rw [hplaces, shapeFaults, hs]
  simp only [hbranching, true_and]
  cases ht : fields.get? "IsTrue" with
  | none => simp
  | some whenTrue =>
      simp only [Option.some.injEq, forall_eq', exists_eq_left', List.append_eq_nil_iff]
      constructor
      · exact fun h => h.2
      · rintro ⟨hyes, hno⟩
        refine ⟨⟨?_, ?_⟩, hyes, hno⟩
        · obtain ⟨steps, rfl, -⟩ := hyes
          rfl
        · split
          · rename_i hf
            obtain ⟨whenFalse, hf⟩ := Option.isSome_iff_exists.mp hf
            obtain ⟨steps, rfl, -⟩ := hno whenFalse hf
            rw [hf]
            rfl
          · rfl

/-- A step is sound if it has a usable name, nothing is found wrong with it and every place in it
holds entries. -/
theorem soundStep_iff {fields : Fields Document} :
    SoundStep fields ↔ ∃ name, usableName? fields = some name ∧ stepFaults name fields = [] ∧
      ∀ place ∈ places name fields, IsStepList place.content := by
  constructor
  · rintro ⟨⟨name, hname⟩, hnext, hend, hone, hbranches, hyes, hno⟩
    have hshape : shapeFaults name fields = [] ∧ branchingFaults name fields = [] ∧
        ∀ place ∈ places name fields, IsStepList place.content := by
      cases hs : Shape.of fields with
      | plain => simp [shapeFaults, branchingFaults, places, hs]
      | parallel => exact (branches_sound_iff hs).mpr (hbranches hs)
      | choice => exact (choice_sound_iff hs).mpr ⟨hyes hs, hno hs⟩
    obtain ⟨hfields, hbranching, hplaces⟩ := hshape
    refine ⟨name, usableName?_eq_some.mpr hname, ?_, hplaces⟩
    exact stepFaults_eq_nil.mpr ⟨chainFaults_eq_nil.mpr ⟨hnext, hend⟩,
      conflicts_eq_false.mpr hone, hfields, hbranching⟩
  · rintro ⟨name, hname, hfaults, hplaces⟩
    obtain ⟨hchain, hone, hfields, hbranching⟩ := stepFaults_eq_nil.mp hfaults
    obtain ⟨hnext, hend⟩ := chainFaults_eq_nil.mp hchain
    have hshape := And.intro hfields (And.intro hbranching hplaces)
    exact ⟨⟨name, usableName?_eq_some.mp hname⟩, hnext, hend, conflicts_eq_false.mp hone,
      fun hs => (branches_sound_iff hs).mp hshape, fun hs => ((choice_sound_iff hs).mp hshape).1,
      fun hs => ((choice_sound_iff hs).mp hshape).2⟩

/-! ## Plans without faults -/

/-- Findings among which nothing is wrong by itself. -/
def Faultless (findings : List Finding) : Prop := ∀ fault, .wrong fault ∉ findings

theorem faultless_append {findings more : List Finding} :
    Faultless (findings ++ more) ↔ Faultless findings ∧ Faultless more := by
  simp only [Faultless, List.mem_append, not_or, forall_and]

theorem faultless_faults {faults : List Fault} :
    Faultless (faults.map .wrong) ↔ faults = [] := by
  rw [List.eq_nil_iff_forall_not_mem]
  simp [Faultless]

theorem faultless_emptyFindings {scope : Scope} {steps : List Document} :
    Faultless (emptyFindings scope steps) ↔ steps ≠ [] := by
  cases steps with
  | nil => simp [Faultless, emptyFindings]
  | cons entry rest => simp [Faultless, emptyFindings]

theorem faultless_flatMap {α : Type} {xs : List α} {f : α → List Finding} :
    Faultless (xs.flatMap f) ↔ ∀ x ∈ xs, Faultless (f x) := by
  simp only [Faultless, List.mem_flatMap, not_exists, not_and]
  exact ⟨fun h x hx fault => h fault x hx, fun h fault x hx => h x hx fault⟩

theorem faultless_entryFindings {scope : Scope} {index : Nat} {after : Option String}
    {entry : Document} :
    Faultless (entryFindings scope index after entry) ↔
      ∃ fields name, entry = .object fields ∧ usableName? fields = some name ∧
        stepFaults name fields = [] := by
  cases entry with
  | object fields =>
      rw [entryFindings]
      cases hu : usableName? fields with
      | none => simp [Faultless, hu]
      | some name =>
          have hstep : Faultless [.step name] := by simp [Faultless]
          show Faultless ([.step name] ++ (stepFaults name fields).map .wrong) ↔ _
          rw [faultless_append, faultless_faults]
          simp [hstep, hu]
  | _ => simp [Faultless, entryFindings]

theorem faultless_placeFindings {place : Place} :
    Faultless (placeFindings place) ↔
      ∃ steps, place.content = .list steps ∧ steps ≠ [] ∧
        Faultless (entriesFindings place.scope 0 none steps) := by
  rw [placeFindings]
  cases hc : place.content with
  | list steps =>
      show Faultless (listFindings place.scope steps) ↔ _
      rw [listFindings, faultless_append, faultless_emptyFindings]
      simp
  | _ => simp [Faultless]

/-- Nothing is wrong with an entry and the places in it if the entry is a sound step and all
entries below it are. -/
theorem faultless_entry_iff (scope : Scope) (index : Nat) (after : Option String)
    {entry : Document}
    (ih : ∀ place ∈ entryPlaces entry, ∀ steps, place.content = .list steps →
      (Faultless (entriesFindings place.scope 0 none steps) ↔
        ∀ below ∈ allSteps steps, SoundEntry below)) :
    (Faultless (entryFindings scope index after entry) ∧
        Faultless ((entryPlaces entry).flatMap placeFindings)) ↔
      SoundEntry entry ∧
        ∀ steps ∈ entryLists entry, ∀ below ∈ allSteps steps, SoundEntry below := by
  constructor
  · rintro ⟨hentry, hplaces⟩
    obtain ⟨fields, name, rfl, hu, hfaults⟩ := faultless_entryFindings.mp hentry
    have hin : entryPlaces (.object fields) = places name fields := by rw [entryPlaces, hu]
    rw [faultless_flatMap, hin] at hplaces
    rw [hin] at ih
    -- a place that a reading gets through holds entries, so the lists of the step are there
    refine ⟨⟨fields, rfl, soundStep_iff.mpr ⟨name, hu, hfaults, ?_⟩⟩, ?_⟩
    · intro place hp
      obtain ⟨steps, hc, hne, -⟩ := faultless_placeFindings.mp (hplaces place hp)
      exact ⟨steps, hc, hne⟩
    · intro steps hs
      rw [entryLists, subLists_eq_places name] at hs
      obtain ⟨place, hp, hl⟩ := List.mem_filterMap.mp hs
      obtain ⟨steps', hc, -, hf⟩ := faultless_placeFindings.mp (hplaces place hp)
      rw [Place.list?, hc] at hl
      obtain rfl := Option.some.inj hl
      exact (ih place hp steps' hc).mp hf
  · rintro ⟨⟨fields, rfl, hsound⟩, hlists⟩
    obtain ⟨name, hu, hfaults, hplaces⟩ := soundStep_iff.mp hsound
    have hin : entryPlaces (.object fields) = places name fields := by rw [entryPlaces, hu]
    rw [hin] at ih ⊢
    refine ⟨faultless_entryFindings.mpr ⟨fields, name, rfl, hu, hfaults⟩, ?_⟩
    refine faultless_flatMap.mpr fun place hp => ?_
    obtain ⟨steps, hc, hne⟩ := hplaces place hp
    have hs : steps ∈ entryLists (.object fields) := by
      rw [entryLists, subLists_eq_places name]
      exact List.mem_filterMap.mpr ⟨place, hp, by rw [Place.list?, hc]; rfl⟩
    exact faultless_placeFindings.mpr ⟨steps, hc, hne, (ih place hp steps hc).mpr (hlists steps hs)⟩

/-- A reading comes across nothing that is wrong by itself if all entries are sound steps. -/
theorem faultless_entriesFindings : ∀ (steps : List Document) (scope : Scope) (index : Nat)
    (after : Option String), Faultless (entriesFindings scope index after steps) ↔
      ∀ entry ∈ allSteps steps, SoundEntry entry
  | [], _, _, _ => by
      rw [entriesFindings, allSteps_eq]
      simp [Faultless]
  | entry :: rest, scope, index, after => by
      have hrest := faultless_entriesFindings rest scope (index + 1) (entry.textAt? "Name")
      have hentry := faultless_entry_iff scope index after
        fun (place : Place) (hp : place ∈ entryPlaces entry) steps hc => by
          have := sizeOf_lt_cons_of_mem_entryPlaces hp hc rest
          exact faultless_entriesFindings steps place.scope 0 none
      rw [entriesFindings_cons, faultless_append, faultless_append, hrest, hentry, allSteps_cons,
        List.forall_mem_append, List.forall_mem_cons, List.forall_mem_flatMap]
termination_by steps => sizeOf steps
decreasing_by
  · simp only [List.cons.sizeOf_spec]
    omega
  · exact this

theorem faultless_listFindings {plan : List Document} :
    Faultless (listFindings .root plan) ↔
      plan ≠ [] ∧ ∀ steps, ListIn plan steps → ∀ entry ∈ steps, SoundEntry entry := by
  rw [listFindings, faultless_append, faultless_emptyFindings, faultless_entriesFindings]
  refine and_congr_right fun _ => ?_
  constructor
  · intro h steps hl entry he
    exact h entry (mem_allSteps_iff.mpr ⟨steps, hl, he⟩)
  · intro h entry he
    obtain ⟨steps, hl, he⟩ := mem_allSteps_iff.mp he
    exact h steps hl entry he

/-! ## Names that differ -/

/-- Where all entries are sound, the names that are collected differ if those of any two entries
do. -/
theorem authoredNames_nodup_iff {steps : List Document}
    (h : ∀ entry ∈ allSteps steps, SoundEntry entry) :
    (authoredNames steps).Nodup ↔ (allSteps steps).Pairwise fun entry other =>
      entry.textAt? "Name" ≠ other.textAt? "Name" := by
  rw [authoredNames_eq_allSteps, List.Nodup, List.pairwise_filterMap]
  refine List.Pairwise.iff_of_mem fun {entry other} he _ => ?_
  obtain ⟨fields, rfl, hsound⟩ := h entry he
  obtain ⟨name, hname, -⟩ := hsound.named
  rw [Document.textAt?_object hname]
  constructor
  · intro hne heq
    exact hne name rfl name heq.symm rfl
  · intro hne name' hn other' ho heq
    rw [ho, ← heq] at hne
    exact hne hn

/-! ## Acceptance -/

/-- The lists that compile are the well-formed ones. -/
theorem exists_definition_iff_wellFormed {c : Compiler} {plan : List Document} :
    (∃ definition, c.definition (.list plan) = .ok definition) ↔ WellFormed plan := by
  constructor
  · intro hok
    have ⟨definition, hd⟩ := hok
    obtain ⟨hfaults, -⟩ := clean_iff.mp (exists_definition_iff_clean.mp hok)
    obtain ⟨hne, hsound⟩ := faultless_listFindings.mp hfaults
    have hnames := (graphFor_of_definition hd).authoredNames_nodup
    refine ⟨hne, hsound, (authoredNames_nodup_iff fun entry he => ?_).mp hnames⟩
    obtain ⟨steps, hl, he⟩ := mem_allSteps_iff.mp he
    exact hsound steps hl entry he
  · rintro ⟨hne, hsound, hdistinct⟩
    refine exists_definition_iff_clean.mpr (clean_iff.mpr ⟨?_, ?_⟩)
    · exact faultless_listFindings.mpr ⟨hne, hsound⟩
    · refine List.Nodup.sublist (stepsFound_listFindings_sublist .root plan) ?_
      refine (authoredNames_nodup_iff fun entry he => ?_).mpr hdistinct
      obtain ⟨steps, hl, he⟩ := mem_allSteps_iff.mp he
      exact hsound steps hl entry he

/-- The fault of a plan is the same for all compilers. -/
theorem definition_eq_error_congr (c c' : Compiler) (plan : Document) (fault : Fault) :
    c.definition plan = .error fault ↔ c'.definition plan = .error fault := by
  cases plan with
  | list steps => rw [definition_eq_error_iff, definition_eq_error_iff]
  | _ => rfl

/-- A document compiles if it is a well-formed plan.  The settings have no say in that, nor in
what is found wrong; and a name that is found to be given twice is that of two steps. -/
theorem definition_accepts_iff (c : Compiler) (document : Document) :
    ((∃ definition, c.definition document = .ok definition) ↔
      ∃ plan, document = .list plan ∧ WellFormed plan) ∧
    (∀ (c' : Compiler) (fault : Fault),
      c.definition document = .error fault ↔ c'.definition document = .error fault) ∧
    ∀ plan name, document = .list plan →
      c.definition document = .error (.duplicateName name) →
      List.Sublist [name, name]
        ((allSteps plan).filterMap fun entry => entry.textAt? "Name") := by
  refine ⟨?_, fun c' fault => definition_eq_error_congr c c' document fault, ?_⟩
  · cases document with
    | list plan => simp [exists_definition_iff_wellFormed]
    | _ => simp [Compiler.definition, Compiler.recordDefinition]
  · rintro plan name rfl hd
    rw [← authoredNames_eq_allSteps]
    cases located_of_firstFault (definition_eq_error_iff.mp hd) with
    | duplicateName h => exact h

/-- A plan in which a step behind a fan-out has the name of one in its branch. -/
def echoedPlan : List Document :=
  [.object [("Name", .string "Fork"), ("Branches", .list [.list [.object
      [("Name", .string "Echo")]]])],
    .object [("Name", .string "Echo")]]

/-- It is the author who gave the name twice, although a merge state stands between the two. -/
theorem echoedPlan_rejected :
    ({} : Compiler).definition (.list echoedPlan) = .error (.duplicateName "Echo") ∧
      List.Sublist ["Echo", "Echo"]
        ((allSteps echoedPlan).filterMap fun entry => entry.textAt? "Name") := by
  have hd : ({} : Compiler).definition (.list echoedPlan) = .error (.duplicateName "Echo") := rfl
  exact ⟨hd, (definition_accepts_iff {} (.list echoedPlan)).2.2 echoedPlan "Echo" rfl hd⟩

end StepGraph.Plan
