/-
Groups keep every state that is added to them, once and in order.

Groups stand in the order of their types and none is empty, so they are known
from the states of each type.  If states are added one after the other to no
groups, those of a type are the added ones of this type in the order in which
they were added.  How the types were mixed on the way leaves no trace: what is
in the groups, and how they are written, depends on each type alone.
-/
import Mathlib.Algebra.Ring.Nat
import Mathlib.Data.List.Sort
import StepGraph.Json.Writer
import StepGraph.Proofs.ByteOrder
import StepGraph.Proofs.PlanLookup
import StepGraph.Proofs.Traversal

namespace StepGraph.Template

/-- Groups keep states that were added, each under its type, and hold nothing else. -/
structure KeepsAdded (added : List (String × FoundStep)) (g : StepGroups) : Prop where
  /-- One goes through the groups in the order of their types' bytes. -/
  ascending : (g.groups.map fun group => bytes group.1).Pairwise (· < ·)
  nonempty : ∀ group ∈ g.groups, group.2 ≠ []
  /-- The states of a type are those that were added under it, in this order. -/
  get : ∀ type, g.get type = visitedUnder added type
  get_of_absent : ∀ type, (∀ named ∈ added, named.1 ≠ type) → g.get type = []
  /-- What one goes through is what one gets by type. -/
  listed : ∀ type steps, (type, steps) ∈ g.groups ↔ steps ≠ [] ∧ steps = visitedUnder added type
  size : g.size = added.length
  size_sum : g.size = (g.groups.map fun group => group.2.length).sum
  isEmpty_iff : g.isEmpty = true ↔ g.size = 0

namespace StepGroups

/-- Groups in the order of their types are known from the types and what each holds. -/
theorem Ascending.groups_eq {g : StepGroups} (h : g.Ascending) :
    g.groups = g.types.map fun type => (type, g.get type) := by
  obtain ⟨groups⟩ := g
  induction groups with
  | nil => rfl
  | cons group rest ih =>
      obtain ⟨first, steps⟩ := group
      obtain ⟨hfirst, hrest⟩ := List.pairwise_cons.mp h
      have hlater : (types ⟨rest⟩).map (fun type => (type, get ⟨(first, steps) :: rest⟩ type)) =
          rest := by
        refine Eq.trans (List.map_congr_left ?_) (ih hrest).symm
        intro type ht
        rw [get_cons, if_neg (ne_of_lt (hfirst type ht))]
      show (first, steps) :: rest = (first, get ⟨(first, steps) :: rest⟩ first) ::
        (types ⟨rest⟩).map fun type => (type, get ⟨(first, steps) :: rest⟩ type)
      rw [hlater, get_cons, if_pos rfl]

theorem Ascending.ext {g h : StepGroups} (hg : g.Ascending) (hh : h.Ascending)
    (htypes : ∀ type, type ∈ g.types ↔ type ∈ h.types) (hget : ∀ type, g.get type = h.get type) :
    g = h := by
  have htypes : g.types = h.types := List.Pairwise.eq_of_mem_iff hg hh htypes
  have hgroups : g.groups = h.groups := by
    rw [hg.groups_eq, hh.groups_eq, htypes]
    exact List.map_congr_left fun type _ => by rw [hget]
  exact congrArg StepGroups.mk hgroups

theorem Ascending.mem_groups_iff {g : StepGroups} (h : g.Ascending) {type : String}
    {steps : List FoundStep} :
    (type, steps) ∈ g.groups ↔ type ∈ g.types ∧ steps = g.get type := by
  rw [h.groups_eq, List.mem_map]
  constructor
  · rintro ⟨other, ho, he⟩
    obtain ⟨rfl, rfl⟩ := Prod.mk.inj he
    exact ⟨ho, rfl⟩
  · rintro ⟨ht, rfl⟩
    exact ⟨type, ht, rfl⟩

theorem size_eq_sum (g : StepGroups) :
    g.size = (g.groups.map fun group => group.2.length).sum := by
  rw [size, List.sum_eq_foldr, List.foldr_map]

/-- Groups none of which is empty hold no states only if there are none of them. -/
theorem isEmpty_iff_size {g : StepGroups} (h : ∀ group ∈ g.groups, group.2 ≠ []) :
    g.isEmpty = true ↔ g.size = 0 := by
  obtain ⟨groups⟩ := g
  cases groups with
  | nil => exact ⟨fun _ => rfl, fun _ => rfl⟩
  | cons group rest =>
      have hpos : 0 < group.2.length := List.length_pos_iff.mpr (h group List.mem_cons_self)
      constructor
      · exact nofun
      · intro hsize
        have hsum : group.2.length + size ⟨rest⟩ = 0 := hsize
        omega

end StepGroups

/-! ## States that are added one after the other -/

open StepGroups (ascending_empty empty)

theorem get_pushAll_empty (added : List (String × FoundStep)) (type : String) :
    (empty.pushAll added).get type = visitedUnder added type := by
  rw [ascending_empty.get_pushAll]
  exact List.nil_append _

theorem mem_types_pushAll_empty {added : List (String × FoundStep)} {type : String} :
    type ∈ (empty.pushAll added).types ↔ visitedUnder added type ≠ [] := by
  rw [StepGroups.mem_types_pushAll, visitedUnder_ne_nil_iff]
  exact or_iff_right List.not_mem_nil

theorem keepsAdded_pushAll (added : List (String × FoundStep)) :
    KeepsAdded added (empty.pushAll added) := by
  have hascending := ascending_empty.pushAll added
  have hlisted : ∀ type steps, (type, steps) ∈ (empty.pushAll added).groups ↔
      steps ≠ [] ∧ steps = visitedUnder added type := by
    intro type steps
    rw [hascending.mem_groups_iff, mem_types_pushAll_empty, get_pushAll_empty]
    exact and_congr_left fun hsteps => hsteps ▸ Iff.rfl
  have hnonempty : ∀ group ∈ (empty.pushAll added).groups, group.2 ≠ [] := by
    intro group hm
    exact ((hlisted group.1 group.2).mp hm).1
  refine ⟨?_, hnonempty, get_pushAll_empty added, ?_, hlisted, ?_, StepGroups.size_eq_sum _,
    StepGroups.isEmpty_iff_size hnonempty⟩
  · rw [List.pairwise_map]
    exact (List.pairwise_map.mp hascending).imp bytes_lt_iff.mpr
  · intro type habsent
    rw [get_pushAll_empty]
    by_contra hne
    obtain ⟨named, hm, ht⟩ := visitedUnder_ne_nil_iff.mp hne
    exact habsent named hm ht
  · rw [StepGroups.size_pushAll]
    exact Nat.zero_add _

/-- A search adds the visits under wanted types one after the other. -/
theorem keepsAdded_steps {index : Index} {wanted : List String} {groups : StepGroups}
    (h : index.steps wanted = .ok groups) :
    ∃ plan, index.plan? = .ok (some plan) ∧
      KeepsAdded ((visited plan.payload).filter fun visit => wanted.contains visit.1) groups := by
  rcases index.steps_cases wanted with
    ⟨plan, states, hp, -, hstates, -⟩ | ⟨fault, -, hsteps⟩
  · obtain rfl := Except.ok.inj ((Index.steps_of_states hp hstates wanted).symm.trans h)
    refine ⟨plan, hp, ?_⟩
    rw [collectGraph_eq_pushAll, wantedAmong, ← visited_eq_filterMap]
    exact keepsAdded_pushAll _
  · cases hsteps.symm.trans h

/-- Groups keep the states that are added to them one after the other, and are the same for all
that differ only in how the types are mixed.  A search makes its groups this way. -/
theorem groups_keepAdded :
    (∀ added, KeepsAdded added (empty.pushAll added) ∧
      ∀ more, (∀ type, visitedUnder more type = visitedUnder added type) →
        empty.pushAll more = empty.pushAll added ∧
        Json.compact (empty.pushAll more).toDocument =
          Json.compact (empty.pushAll added).toDocument) ∧
    ∀ (index : Index) wanted groups, index.steps wanted = .ok groups →
      ∃ plan, index.plan? = .ok (some plan) ∧
        KeepsAdded ((visited plan.payload).filter fun visit => wanted.contains visit.1) groups := by
  constructor
  · intro added
    refine ⟨keepsAdded_pushAll added, ?_⟩
    intro more hsame
    have heq : empty.pushAll more = empty.pushAll added := by
      refine (ascending_empty.pushAll more).ext (ascending_empty.pushAll added) ?_ ?_
      · intro type
        rw [mem_types_pushAll_empty, mem_types_pushAll_empty, hsame]
      · intro type
        rw [get_pushAll_empty, get_pushAll_empty, hsame]
    exact ⟨heq, by rw [heq]⟩
  · intro index wanted groups hsteps
    exact keepsAdded_steps hsteps

/-- The search of the hand-written graph for choices and jobs groups what is visited in it. -/
theorem handWrittenGraph_keepsAdded :
    ∃ index groups, Index.build {} handWrittenTemplate = .ok index ∧
      index.steps ["Job", "Choice"] = .ok groups ∧
      KeepsAdded ((visited handWrittenGraph).filter fun visit => ["Job", "Choice"].contains visit.1)
        groups := by
  have hp : (⟨handWrittenTemplate, [("Rollout", handWrittenResource)], {}⟩ : Index).plan? =
      .ok (some ⟨"Rollout", handWrittenResource, handWrittenGraph, .stateLanguage⟩) := rfl
  have hsteps := Index.steps_of_states hp rfl ["Job", "Choice"]
  obtain ⟨plan, hplan, hkeeps⟩ := groups_keepAdded.2 _ _ _ hsteps
  obtain rfl := Option.some.inj (Except.ok.inj (hp.symm.trans hplan))
  exact ⟨_, _, rfl, hsteps, hkeeps⟩

end StepGraph.Template
