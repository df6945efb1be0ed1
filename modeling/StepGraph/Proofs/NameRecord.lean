/-
The names that a compilation uses are those collected before it.

The names that the author wrote are collected before anything is compiled, and
the collection passes over whatever is no step, where the compiler stops.  The
record of a compilation holds each name that it claims for a step and each that
it makes up for an inserted state, in order and up to the fault if there is one.

The collection and the compiler go through a plan on the same way.  So the
names that are claimed are the first of those collected, and all of them if the
plan compiles.  A name in a list that no shape compiles is not among them, and
no inserted state has to give way to it.
-/
import StepGraph.Proofs.NamePartition

namespace StepGraph.Plan

/-- The names that are claimed for steps, in order. -/
def claimedNames : List NameUse → List String
  | [] => []
  | .claim name :: uses => name :: claimedNames uses
  | .make _ _ :: uses => claimedNames uses

/-! ## Names in use -/

/-- Names become others by uses: what is claimed was not claimed before, and what is made up is
fresh. -/
inductive Uses : Names → List NameUse → Names → Prop
  | nil {names : Names} : Uses names [] names
  | claim {names final : Names} {name : String} {uses : List NameUse} :
      name ∉ names.claimed → Uses (names.add name) uses final →
      Uses names (.claim name :: uses) final
  | make {names final : Names} (base : String) {uses : List NameUse} :
      Uses (names.add (names.fresh base)) uses final →
      Uses names (.make base (names.fresh base) :: uses) final

section Uses

variable {names inner final : Names} {uses more : List NameUse}

theorem Uses.trans (h : Uses names uses inner) (h' : Uses inner more final) :
    Uses names (uses ++ more) final := by
  induction h with
  | nil => exact h'
  | claim hnew _ ih => exact .claim hnew (ih h')
  | make base _ ih => exact .make base (ih h')

theorem Uses.authored (h : Uses names uses final) : final.authored = names.authored := by
  induction h with
  | nil => rfl
  | claim _ _ ih => exact ih
  | make _ _ ih => exact ih

theorem Uses.claimed (h : Uses names uses final) :
    final.claimed = (uses.map NameUse.name).reverse ++ names.claimed := by
  induction h with
  | nil => rfl
  | claim _ _ ih =>
      rw [ih, List.map_cons, List.reverse_cons, List.append_assoc]
      rfl
  | make _ _ ih =>
      rw [ih, List.map_cons, List.reverse_cons, List.append_assoc]
      rfl

/-- What is made up is fresh among the names as they are then. -/
theorem Uses.made {base name : String} {before behind : List NameUse} (h : Uses names uses final)
    (hu : uses = before ++ .make base name :: behind) :
    ∃ inner, Uses names before inner ∧ name = inner.fresh base := by
  induction h generalizing before with
  | nil => simp at hu
  | @claim names _ _ _ hnew _ ih =>
      cases before with
      | nil => cases hu
      | cons first before =>
          obtain ⟨rfl, rfl⟩ := List.cons.inj hu
          obtain ⟨inner, hinner, hname⟩ := ih rfl
          exact ⟨inner, .claim hnew hinner, hname⟩
  | @make names _ own _ _ ih =>
      cases before with
      | nil =>
          cases hu
          exact ⟨names, .nil, rfl⟩
      | cons first before =>
          obtain ⟨rfl, rfl⟩ := List.cons.inj hu
          obtain ⟨inner, hinner, hname⟩ := ih rfl
          exact ⟨inner, .make own hinner, hname⟩

end Uses

theorem claimedNames_append (uses more : List NameUse) :
    claimedNames (uses ++ more) = claimedNames uses ++ claimedNames more := by
  induction uses with
  | nil => rfl
  | cons use uses ih =>
      cases use with
      | claim name => exact congrArg (name :: ·) ih
      | make base name => exact ih

theorem mem_claimedNames_iff {uses : List NameUse} {name : String} :
    name ∈ claimedNames uses ↔ .claim name ∈ uses := by
  induction uses with
  | nil => simp [claimedNames]
  | cons use uses ih =>
      cases use with
      | claim other => simp [claimedNames, ih]
      | make base other => simp [claimedNames, ih]

theorem mem_renamings_iff {uses : List NameUse} {base name : String} :
    ⟨base, name⟩ ∈ renamings uses ↔ .make base name ∈ uses ∧ name ≠ base := by
  rw [renamings, List.mem_filterMap]
  constructor
  · rintro ⟨use, hu, hrenaming⟩
    cases use with
    | claim other => cases hrenaming
    | make other made =>
        rw [NameUse.renaming?] at hrenaming
        split at hrenaming
        · cases hrenaming
        · rename_i hne
          cases hrenaming
          exact ⟨hu, hne⟩
  · rintro ⟨hu, hne⟩
    exact ⟨_, hu, if_neg hne⟩

/-! ## What a recorded run does

A run is compared with the collection's function for the same part of the plan, whose names it
claims.  Parts that follow each other are put together by `Retraces.bind`. -/

/-- A recorded run claims the first of the names that were collected; if it does not fail it claims
all of them. -/
structure Retraces {α : Type} (names : Names) (run : Recorded Fault (α × Names))
    (collected : List String) : Prop where
  claims : claimedNames run.uses <+: collected
  whole : ∀ value final, run.result = .ok (value, final) →
    claimedNames run.uses = collected ∧ Uses names run.uses final

namespace Retraces

variable {α β : Type} {names : Names} {collected behind : List String}

theorem of_ok (value : α) : Retraces names (pure (value, names)) [] := by
  refine ⟨List.nil_prefix, ?_⟩
  rintro _ _ ⟨⟩
  exact ⟨rfl, .nil⟩

theorem of_error (fault : Fault) (collected : List String) :
    Retraces (α := α) names (.silent (.error fault)) collected :=
  ⟨List.nil_prefix, nofun⟩

/-- A computation that uses no names, and then a run. -/
theorem silent {x : Except Fault α} {f : α → Recorded Fault (β × Names)}
    (h : ∀ a, x = .ok a → Retraces names (f a) collected) :
    Retraces names (.silent x >>= f) collected := by
  cases x with
  | error fault => exact of_error fault collected
  | ok a => exact h a rfl

theorem claim {name : String} {f : Names → Recorded Fault (β × Names)}
    (h : Retraces (names.add name) (f (names.add name)) collected) :
    Retraces names (names.recordClaim name >>= f) (name :: collected) := by
  cases hclaim : names.claim name with
  | error fault =>
      rw [Recorded.bind_of_error hclaim]
      exact ⟨List.prefix_append [name] collected, nofun⟩
  | ok added =>
      obtain ⟨hnew, rfl⟩ := claim_eq_ok hclaim
      rw [Recorded.bind_of_ok hclaim]
      refine ⟨List.cons_prefix_cons.mpr ⟨rfl, h.claims⟩, ?_⟩
      intro value final hok
      obtain ⟨hclaims, huses⟩ := h.whole value final hok
      exact ⟨congrArg (name :: ·) hclaims, .claim hnew huses⟩

theorem bind {x : Recorded Fault (α × Names)} {f : α × Names → Recorded Fault (β × Names)}
    (h : Retraces names x collected) (hnext : ∀ a inner, Retraces inner (f (a, inner)) behind) :
    Retraces names (x >>= f) (collected ++ behind) := by
  cases hx : x.result with
  | error fault =>
      rw [Recorded.bind_of_error hx]
      exact ⟨h.claims.trans (List.prefix_append _ _), nofun⟩
  | ok pair =>
      obtain ⟨a, inner⟩ := pair
      obtain ⟨hclaims, huses⟩ := h.whole a inner hx
      have hbehind := hnext a inner
      rw [Recorded.bind_of_ok hx]
      refine ⟨?_, ?_⟩
      · rw [claimedNames_append, hclaims]
        exact (List.prefix_append_right_inj _).mpr hbehind.claims
      · intro value final hok
        obtain ⟨hclaimsBehind, husesBehind⟩ := hbehind.whole value final hok
        refine ⟨?_, huses.trans husesBehind⟩
        rw [claimedNames_append, hclaims, hclaimsBehind]

/-- What follows a run uses no names. -/
theorem map {x : Recorded Fault (α × Names)} {f : α × Names → Recorded Fault (β × Names)}
    (h : Retraces names x collected) (hnext : ∀ a inner, Retraces inner (f (a, inner)) []) :
    Retraces names (x >>= f) collected :=
  List.append_nil collected ▸ h.bind hnext

end Retraces

theorem recordEntry_retraces (scope : Scope) (index : Nat) (after : Option String) (names : Names)
    (fields : Fields Document) :
    Retraces names (recordEntry scope index after names (.object fields)) (ownNames fields) := by
  rw [recordEntry]
  refine .silent ?_
  intro name hname
  rw [ownNames_of_named (stepName_eq_ok hname).1]
  -- once the name is claimed the checks use no others
  exact .claim (.silent fun _ _ => .silent fun _ _ => .of_ok name)

/-- What is inserted has a fresh name, which is claimed. -/
theorem Compiler.inserted_uses {c : Compiler} {name : String} {entry : Document}
    {rest : List Document} {names behind : Names} {merge : List (String × State)}
    (h : c.inserted name entry rest names = (merge, behind)) :
    Uses names (merge.map fun named => .make (name ++ c.mergeSuffix) named.1) behind := by
  unfold Compiler.inserted at h
  split at h
  · simp only [Names.claimFresh, Prod.mk.injEq] at h
    obtain ⟨rfl, rfl⟩ := h
    exact .make _ .nil
  · simp only [Prod.mk.injEq] at h
    obtain ⟨rfl, rfl⟩ := h
    exact .nil

theorem claimedNames_map_make (base : String) (merge : List (String × State)) :
    claimedNames (merge.map fun named => .make base named.1) = [] := by
  induction merge with
  | nil => rfl
  | cons named merge ih => exact ih

theorem recordInserted_retraces (c : Compiler) (name : String) (entry : Document)
    (rest : List Document) (names : Names) :
    Retraces names (c.recordInserted name entry rest names) [] := by
  have hclaims := claimedNames_map_make (name ++ c.mergeSuffix)
    (c.inserted name entry rest names).1
  refine ⟨hclaims ▸ List.nil_prefix, ?_⟩
  intro merge behind hok
  have hinserted : c.inserted name entry rest names = (merge, behind) := Except.ok.inj hok
  refine ⟨hclaims, ?_⟩
  rw [Compiler.recordInserted, hinserted]
  exact Compiler.inserted_uses hinserted

/-! The cases are those of the compiler's functions, which the collection has as well. -/

mutual

theorem recordSequence_retraces (c : Compiler) : ∀ (steps : List Document) (scope : Scope)
    (index : Nat) (after : Option String) (names : Names),
    Retraces names (c.recordSequence scope index after names steps) (authoredNames steps)
  | [], _, _, _, _ => by
      rw [Compiler.recordSequence, authoredNames]
      exact .of_ok []
  | .object fields :: rest, scope, index, after, names => by
      rw [Compiler.recordSequence, authoredNames, entryNames, List.append_assoc]
      refine (recordEntry_retraces scope index after names fields).bind ?_
      intro name added
      refine (recordState_retraces c name added fields).bind ?_
      intro state inner
      refine (recordInserted_retraces c name (.object fields) rest inner).bind ?_
      intro merge behind
      exact (recordSequence_retraces c rest scope (index + 1) (some name) behind).map
        fun _ _ => .of_ok _
  | .null :: _, _, _, _, _ | .bool _ :: _, _, _, _, _ | .number _ :: _, _, _, _, _
  | .string _ :: _, _, _, _, _ | .list _ :: _, _, _, _, _ => by
      rw [Compiler.recordSequence]
      exact .silent nofun
termination_by steps => sizeOf steps

theorem recordState_retraces (c : Compiler) (name : String) (names : Names)
    (fields : Fields Document) :
    Retraces names (c.recordState name names (.object fields))
      (match Shape.of fields with
        | .plain => []
        | .parallel => branchesNames fields
        | .choice => slotNames .isTrue fields ++ slotNames .isFalse fields) := by
  rw [Compiler.recordState]
  cases Shape.of fields with
  | plain => exact .of_ok _
  | parallel => exact (recordBranches_retraces c name fields names).map fun _ _ => .of_ok _
  | choice =>
      refine (recordSlot_retraces c name .isTrue fields names).bind ?_
      intro whenTrue inner
      exact (recordSlot_retraces c name .isFalse fields inner).map fun _ _ => .of_ok _
termination_by sizeOf fields + 1

theorem recordSlot_retraces (c : Compiler) (name : String) (slot : Slot) :
    ∀ (fields : List (String × Document)) (names : Names),
    Retraces names (c.recordSlot name slot names fields) (slotNames slot fields)
  | [], _ => by
      rw [Compiler.recordSlot, slotNames]
      exact .of_ok none
  | (key, value) :: rest, names => by
      rw [Compiler.recordSlot, slotNames]
      by_cases hk : key = slot.text
      · rw [if_pos hk, if_pos hk]
        exact (recordSubPlan_retraces c name slot value names).map fun _ _ => .of_ok _
      · rw [if_neg hk, if_neg hk]
        exact recordSlot_retraces c name slot rest names
termination_by fields => sizeOf fields

theorem recordBranches_retraces (c : Compiler) (name : String) :
    ∀ (fields : List (String × Document)) (names : Names),
    Retraces names (c.recordBranches name names fields) (branchesNames fields)
  | [], _ => by
      rw [Compiler.recordBranches, branchesNames]
      exact .of_ok none
  | (key, value) :: rest, names => by
      rw [Compiler.recordBranches, branchesNames]
      by_cases hk : key = Slot.branches.text
      · rw [if_pos hk, if_pos hk]
        exact (recordBranchList_retraces c name value names).map fun _ _ => .of_ok _
      · rw [if_neg hk, if_neg hk]
        exact recordBranches_retraces c name rest names
termination_by fields => sizeOf fields

theorem recordBranchList_retraces (c : Compiler) (name : String) :
    ∀ (value : Document) (names : Names),
    Retraces names (c.recordBranchList name names value) (branchListNames value)
  | .list [], _ => .of_error _ _
  | .list (first :: rest), names => by
      rw [Compiler.recordBranchList, branchListNames]
      exact (recordEachBranch_retraces c name (first :: rest) 0 names).map fun _ _ => .of_ok _
  | .null, _ | .bool _, _ | .number _, _ | .string _, _ | .object _, _ => .of_error _ _
termination_by value => sizeOf value

theorem recordEachBranch_retraces (c : Compiler) (name : String) :
    ∀ (branches : List Document) (index : Nat) (names : Names),
    Retraces names (c.recordEachBranch name index names branches) (eachBranchNames branches)
  | [], _, _ => by
      rw [Compiler.recordEachBranch, eachBranchNames]
      exact .of_ok []
  | branch :: rest, index, names => by
      rw [Compiler.recordEachBranch, eachBranchNames]
      refine (recordSubPlan_retraces c name (.branch index) branch names).bind ?_
      intro compiled inner
      exact (recordEachBranch_retraces c name rest (index + 1) inner).map fun _ _ => .of_ok _
termination_by branches => sizeOf branches

theorem recordSubPlan_retraces (c : Compiler) (name : String) (slot : Slot) :
    ∀ (value : Document) (names : Names),
    Retraces names (c.recordSubPlan name slot names value) (listNames value)
  | .list steps, names => by
      rw [Compiler.recordSubPlan, listNames]
      refine (recordSequence_retraces c steps (.slot name slot) 0 none names).map ?_
      intro states inner
      exact .silent fun _ _ => .of_ok _
  | .null, _ | .bool _, _ | .number _, _ | .string _, _ | .object _, _ => .of_error _ _
termination_by value => sizeOf value

end

/-! ## A whole plan -/

/-- In a plan that compiles the collected names are those claimed for steps, and inserted states
give way to no other names. -/
structure ClaimsAll (plan : List Document) (definition : Document) (uses : List NameUse) :
    Prop where
  claims : claimedNames uses = (Names.ofPlan plan).authored
  mem_authored_iff : ∀ name, name ∈ (Names.ofPlan plan).authored ↔ .claim name ∈ uses
  /-- They stand in the lists that the shapes of steps compile. -/
  claim_iff : ∀ name, .claim name ∈ uses ↔ Authored plan name
  /-- The states of the definition have the names that were used. -/
  states : stateNames definition = uses.map NameUse.name
  /-- What is passed over for an inserted state is the name of a step, or of a state that was
  inserted before it. -/
  made : ∀ before base name behind, uses = before ++ .make base name :: behind →
    ∃ n, name = candidate base n ∧ ∀ k < n, .claim (candidate base k) ∈ uses ∨
      ∃ other, .make other (candidate base k) ∈ before
  /-- So a state keeps the name that it is to have unless one of these has it. -/
  kept : ∀ before base name behind, uses = before ++ .make base name :: behind →
    ¬ Authored plan base → (∀ other, .make other base ∉ before) → name = base
  /-- What is warned of comes from a name in the plan, or from another inserted state. -/
  warned : ∀ base name, ⟨base, name⟩ ∈ renamings uses →
    Authored plan base ∨ ∃ other, .make other base ∈ uses

/-- A compilation claims names that were collected before it, in their order. -/
structure ClaimsCollected (c : Compiler) (plan : List Document) : Prop where
  /-- What is recorded is the compilation. -/
  result : (c.recordDefinition (.list plan)).result = c.definition (.list plan)
  /-- Up to its fault, if there is one, it claims the first of the collected names. -/
  claims : claimedNames (c.recordDefinition (.list plan)).uses <+: (Names.ofPlan plan).authored
  collected : ∀ name, .claim name ∈ (c.recordDefinition (.list plan)).uses →
    name ∈ (Names.ofPlan plan).authored
  compiled : ∀ definition, c.definition (.list plan) = .ok definition →
    ClaimsAll plan definition (c.recordDefinition (.list plan)).uses

theorem recordDefinition_uses (c : Compiler) (plan : List Document) :
    (c.recordDefinition (.list plan)).uses =
      (c.recordSequence .root 0 none (.ofPlan plan) plan).uses := by
  rw [Compiler.recordDefinition]
  cases hr : (c.recordSequence .root 0 none (.ofPlan plan) plan).result with
  | error fault => rw [Recorded.bind_of_error hr]
  | ok pair =>
      rw [Recorded.bind_of_ok hr]
      exact List.append_nil _

section Compiled

variable {c : Compiler} {plan : List Document} {definition : Document}
  {states : List (String × State)} {final : Names} {uses : List NameUse}

theorem exists_sequence (h : c.definition (.list plan) = .ok definition) :
    ∃ states final, c.sequence .root 0 none (.ofPlan plan) plan = .ok (states, final) ∧
      definition = graphOf states := by
  rw [Compiler.definition_list] at h
  obtain ⟨⟨states, final⟩, hsequence, hgraph⟩ := bind_eq_ok.mp h
  exact ⟨states, final, hsequence, (graph_eq_ok hgraph).2⟩

theorem Uses.stateNames_eq (h : Uses (.ofPlan plan) uses final)
    (hsequence : c.sequence .root 0 none (.ofPlan plan) plan = .ok (states, final)) :
    stateNames (graphOf states) = uses.map NameUse.name := by
  have hc := compiles_of_sequence hsequence
  have hn : (Names.ofPlan plan).claimed.Nodup := List.nodup_nil
  rw [stateNames_graphOf (hc.names_nodup hn)]
  -- both are what was claimed from the first name to the last
  have hclaimed := (hc.claims hn).claimed
  rw [h.claimed] at hclaimed
  exact List.reverse_injective (List.append_cancel_right hclaimed.symm)

/-- What is taken when a name is made up was collected, or was made up before. -/
theorem Uses.taken {inner : Names} {before : List NameUse} {name : String}
    (h : Uses (.ofPlan plan) before inner) (ht : inner.taken name = true) :
    name ∈ authoredNames plan ∨ .claim name ∈ before ∨ ∃ other, .make other name ∈ before := by
  rcases List.mem_append.mp (Names.taken_iff.mp ht) with hm | hm
  · rw [h.claimed] at hm
    rcases List.mem_append.mp hm with hm | hm
    · obtain ⟨use, hu, rfl⟩ := List.mem_map.mp (List.mem_reverse.mp hm)
      cases use with
      | claim name => exact .inr (.inl hu)
      | make other name => exact .inr (.inr ⟨other, hu⟩)
    · exact absurd hm List.not_mem_nil
  · rw [h.authored] at hm
    exact .inl hm

theorem claim_mem_iff (hclaims : claimedNames uses = authoredNames plan) {name : String} :
    .claim name ∈ uses ↔ Authored plan name := by
  rw [← mem_claimedNames_iff, hclaims, mem_authoredNames_iff]

/-- Candidates are passed over for names in the plan, and for names that were made up before. -/
theorem Uses.passed {base name : String} {before behind : List NameUse}
    (h : Uses (.ofPlan plan) uses final) (hclaims : claimedNames uses = authoredNames plan)
    (hu : uses = before ++ .make base name :: behind) :
    ∃ n, name = candidate base n ∧ ∀ k < n, Authored plan (candidate base k) ∨
      ∃ other, .make other (candidate base k) ∈ before := by
  obtain ⟨inner, hbefore, rfl⟩ := h.made hu
  obtain ⟨n, hfresh, -, htaken⟩ := inner.fresh_spec base
  refine ⟨n, hfresh, ?_⟩
  intro k hk
  rcases hbefore.taken (htaken k hk) with hm | hm | hm
  · exact .inl (mem_authoredNames_iff.mp hm)
  · exact .inl ((claim_mem_iff hclaims).mp (hu ▸ List.mem_append_left _ hm))
  · exact .inr hm

theorem Uses.kept {base name : String} {before behind : List NameUse}
    (h : Uses (.ofPlan plan) uses final) (hclaims : claimedNames uses = authoredNames plan)
    (hu : uses = before ++ .make base name :: behind) (hnew : ¬ Authored plan base)
    (hother : ∀ other, .make other base ∉ before) : name = base := by
  obtain ⟨n, rfl, hpassed⟩ := h.passed hclaims hu
  cases n with
  | zero => rfl
  | succ n =>
      -- the base is the first candidate, and it was passed over
      rcases hpassed 0 (Nat.succ_pos n) with hauthored | ⟨other, hm⟩
      · exact absurd hauthored hnew
      · exact absurd hm (hother other)

theorem Uses.warned {base name : String} (h : Uses (.ofPlan plan) uses final)
    (hclaims : claimedNames uses = authoredNames plan)
    (hm : ⟨base, name⟩ ∈ renamings uses) :
    Authored plan base ∨ ∃ other, .make other base ∈ uses := by
  obtain ⟨hu, hne⟩ := mem_renamings_iff.mp hm
  obtain ⟨before, behind, hsplit⟩ := List.append_of_mem hu
  by_contra hnone
  obtain ⟨hnew, hother⟩ := not_or.mp hnone
  refine hne (h.kept hclaims hsplit hnew ?_)
  intro other hbefore
  exact hother ⟨other, hsplit ▸ List.mem_append_left _ hbefore⟩

theorem claimsAll (hclaims : claimedNames uses = authoredNames plan)
    (huses : Uses (.ofPlan plan) uses final)
    (hsequence : c.sequence .root 0 none (.ofPlan plan) plan = .ok (states, final)) :
    ClaimsAll plan (graphOf states) uses where
  claims := hclaims
  mem_authored_iff name := mem_authoredNames_iff.trans (claim_mem_iff hclaims).symm
  claim_iff _ := claim_mem_iff hclaims
  states := huses.stateNames_eq hsequence
  made before base name behind hu := by
    obtain ⟨n, hname, hpassed⟩ := huses.passed hclaims hu
    refine ⟨n, hname, ?_⟩
    intro k hk
    exact (hpassed k hk).imp_left (claim_mem_iff hclaims).mpr
  kept _ _ _ _ hu hnew hother := huses.kept hclaims hu hnew hother
  warned _ _ hm := huses.warned hclaims hm

end Compiled

/-- Every name that a compilation claims, up to its end or its fault, was collected before it; and
in a plan that compiles no other names were. -/
theorem definition_claimsCollected (c : Compiler) (plan : List Document) :
    ClaimsCollected c plan := by
  have hretraces := recordSequence_retraces c plan .root 0 none (.ofPlan plan)
  have hclaims : claimedNames (c.recordDefinition (.list plan)).uses <+: authoredNames plan :=
    recordDefinition_uses c plan ▸ hretraces.claims
  refine ⟨rfl, hclaims, ?_, ?_⟩
  · intro name hm
    exact hclaims.subset (mem_claimedNames_iff.mpr hm)
  · intro definition hd
    obtain ⟨states, final, hsequence, rfl⟩ := exists_sequence hd
    obtain ⟨hall, huses⟩ := hretraces.whole states final hsequence
    rw [recordDefinition_uses]
    exact claimsAll hall huses hsequence

/-- A plan with a name in a list that no shape compiles. -/
def hiddenPlan : List Document :=
  [.object [("Name", .string "Fan"), ("Branches", .list [.list
    [.object [("Name", .string "Leaf"), ("Type", .string "Job"),
      ("Branches", .list [.list [.object [("Name", .string "FanMerge")]]])]]])]]

example : (({} : Compiler).recordDefinition (.list hiddenPlan)).uses =
    [.claim "Fan", .claim "Leaf", .make "FanMerge" "FanMerge"] := rfl

-- Behind the fan-out of this plan stands a state that is not named as it should be.
example : renamings (({} : Compiler).recordDefinition (.list forkedPlan)).uses =
    [⟨"FanMerge", "FanMerge2"⟩] := rfl

end StepGraph.Plan
