/-
What groups hold.

Adding a state to groups that stand in the order of their types adds it to
the group of its type and to no other.  The order stays, so the same holds
for any number of states added one after the other: the group of a type holds
those of this type, in the order in which they were added.
-/
import Mathlib.Data.String.Basic
import StepGraph.Template.StepGroups

namespace StepGraph.Template.StepGroups

/-- Groups stand in the order of their types, one for each. -/
def Ascending (g : StepGroups) : Prop := (g.groups.map Prod.fst).Pairwise (· < ·)

/-- The types that have a group, in order. -/
def types (g : StepGroups) : List String := g.groups.map Prod.fst

/-- The states in all groups. -/
def all (g : StepGroups) : List FoundStep := g.groups.flatMap Prod.snd

/-- Adds states one after the other, each under its type. -/
def pushAll (g : StepGroups) (found : List (String × FoundStep)) : StepGroups :=
  found.foldl (fun g named => g.push named.1 named.2) g

theorem get_cons (type other : String) (steps : List FoundStep)
    (rest : List (String × List FoundStep)) :
    get ⟨(type, steps) :: rest⟩ other = if type = other then steps else get ⟨rest⟩ other := by
  by_cases h : type = other <;> simp [get, h]

/-- What is asked for before the first type is not there. -/
theorem get_of_lt {groups : List (String × List FoundStep)} {type : String}
    (h : ∀ other ∈ groups.map Prod.fst, type < other) : get ⟨groups⟩ type = [] := by
  induction groups with
  | nil => rfl
  | cons group rest ih =>
      obtain ⟨other, steps⟩ := group
      obtain ⟨hlt, hrest⟩ := List.forall_mem_cons.mp h
      rw [get_cons, if_neg (ne_of_gt hlt)]
      exact ih hrest

theorem mem_types_pushTo {type other : String} {found : FoundStep}
    {groups : List (String × List FoundStep)}
    (h : other ∈ (pushTo type found groups).map Prod.fst) :
    other = type ∨ other ∈ groups.map Prod.fst := by
  induction groups with
  | nil => exact .inl (by simpa [pushTo] using h)
  | cons group rest ih =>
      obtain ⟨first, steps⟩ := group
      rw [pushTo] at h
      split at h
      · exact .inr h
      · split at h
        · exact List.mem_cons.mp h
        · rcases List.mem_cons.mp h with h | h
          · exact .inr (h ▸ List.mem_cons_self)
          · exact (ih h).imp_right (List.mem_cons_of_mem _)

/-- Adding a state opens the group of its type if it is not there, and no other. -/
theorem mem_types_push {g : StepGroups} {type other : String} {found : FoundStep} :
    other ∈ (g.push type found).types ↔ other = type ∨ other ∈ g.types := by
  obtain ⟨groups⟩ := g
  constructor
  · exact mem_types_pushTo
  · show _ → other ∈ (pushTo type found groups).map Prod.fst
    induction groups with
    | nil =>
        intro h
        exact h.elim (fun he => List.mem_singleton.mpr he) fun hm => absurd hm List.not_mem_nil
    | cons group rest ih =>
        obtain ⟨first, steps⟩ := group
        intro h
        rw [pushTo]
        split
        · rename_i he
          exact h.elim (fun ho => ho.trans he ▸ List.mem_cons_self) id
        · split
          · exact List.mem_cons.mpr h
          · rcases h with h | h
            · exact List.mem_cons_of_mem _ (ih (.inl h))
            · rcases List.mem_cons.mp h with h | h
              · exact h ▸ List.mem_cons_self
              · exact List.mem_cons_of_mem _ (ih (.inr h))

/-- Adding a state keeps the order of the types. -/
theorem Ascending.push {g : StepGroups} (h : g.Ascending) (type : String) (found : FoundStep) :
    (g.push type found).Ascending := by
  obtain ⟨groups⟩ := g
  rw [StepGroups.push]
  induction groups with
  | nil => exact List.pairwise_singleton _ _
  | cons group rest ih =>
      obtain ⟨other, steps⟩ := group
      obtain ⟨hfirst, hrest⟩ := List.pairwise_cons.mp h
      simp only [Ascending, pushTo]
      split
      · exact h
      · rename_i hne
        split
        · rename_i hlt
          refine List.pairwise_cons.mpr ⟨?_, h⟩
          rintro later (_ | ⟨_, hl⟩)
          · exact hlt
          · exact lt_trans hlt (hfirst later hl)
        · rename_i hnlt
          have hlt : other < type := lt_of_le_of_ne (not_lt.mp hnlt) (Ne.symm hne)
          refine List.pairwise_cons.mpr ⟨?_, ih hrest⟩
          intro later hl
          rcases mem_types_pushTo hl with rfl | hl
          · exact hlt
          · exact hfirst later hl

/-- A state is added to the group of its type and to no other. -/
theorem Ascending.get_push {g : StepGroups} (h : g.Ascending) (type other : String)
    (found : FoundStep) :
    (g.push type found).get other =
      if type = other then g.get other ++ [found] else g.get other := by
  obtain ⟨groups⟩ := g
  rw [StepGroups.push]
  induction groups with
  | nil => rw [pushTo, get_cons]; rfl
  | cons group rest ih =>
      obtain ⟨first, steps⟩ := group
      obtain ⟨hfirst, hrest⟩ := List.pairwise_cons.mp h
      simp only [pushTo]
      split
      · rename_i he
        subst he
        rw [get_cons, get_cons]
        split <;> rfl
      · rename_i hne
        split
        · rename_i hlt
          rw [get_cons]
          split
          · rename_i he
            subst he
            rw [get_of_lt, List.nil_append]
            rintro later (_ | ⟨_, hl⟩)
            · exact hlt
            · exact lt_trans hlt (hfirst later hl)
          · rfl
        · rw [get_cons, get_cons]
          by_cases he : first = other
          · rw [if_pos he, if_pos he, if_neg (fun ht => hne (ht.trans he.symm))]
          · rw [if_neg he, if_neg he]
            exact ih hrest

/-- Nothing is lost and nothing added but the one state. -/
theorem all_push (g : StepGroups) (type : String) (found : FoundStep) :
    (g.push type found).all.Perm (g.all ++ [found]) := by
  obtain ⟨groups⟩ := g
  simp only [all, StepGroups.push]
  induction groups with
  | nil => exact List.Perm.refl _
  | cons group rest ih =>
      obtain ⟨other, steps⟩ := group
      rw [pushTo]
      split
      · rw [List.flatMap_cons, List.flatMap_cons, List.append_assoc, List.append_assoc]
        exact List.Perm.append_left _ List.perm_append_comm
      · split
        · rw [List.flatMap_cons]
          exact List.perm_append_comm
        · rw [List.flatMap_cons, List.flatMap_cons, List.append_assoc]
          exact List.Perm.append_left _ ih

/-! ## Any number of states -/

theorem ascending_empty : empty.Ascending := List.Pairwise.nil

theorem Ascending.pushAll {g : StepGroups} (h : g.Ascending) (found : List (String × FoundStep)) :
    (g.pushAll found).Ascending := by
  induction found generalizing g with
  | nil => exact h
  | cons named rest ih => exact ih (h.push named.1 named.2)

/-- The group of a type holds behind what it held the added states of this type. -/
theorem Ascending.get_pushAll {g : StepGroups} (h : g.Ascending)
    (found : List (String × FoundStep)) (type : String) :
    (g.pushAll found).get type =
      g.get type ++ (found.filter fun named => named.1 = type).map Prod.snd := by
  induction found generalizing g with
  | nil => exact (List.append_nil _).symm
  | cons named rest ih =>
      have hrest := ih (h.push named.1 named.2)
      rw [StepGroups.pushAll] at hrest
      rw [StepGroups.pushAll, List.foldl_cons, hrest, h.get_push]
      by_cases ht : named.1 = type
      · rw [if_pos ht, List.filter_cons_of_pos (by simpa using ht), List.map_cons,
          List.append_assoc, List.singleton_append]
      · rw [if_neg ht, List.filter_cons_of_neg (by simpa using ht)]

/-- The types with a group are those that had one and those of the added states. -/
theorem mem_types_pushAll {g : StepGroups} {found : List (String × FoundStep)} {type : String} :
    type ∈ (g.pushAll found).types ↔ type ∈ g.types ∨ ∃ named ∈ found, named.1 = type := by
  induction found generalizing g with
  | nil => simp [StepGroups.pushAll]
  | cons named rest ih =>
      show type ∈ ((g.push named.1 named.2).pushAll rest).types ↔ _
      rw [ih, mem_types_push, List.exists_mem_cons_iff, eq_comm, or_assoc, or_left_comm]

theorem all_pushAll (g : StepGroups) (found : List (String × FoundStep)) :
    (g.pushAll found).all.Perm (g.all ++ found.map Prod.snd) := by
  induction found generalizing g with
  | nil => rw [List.map_nil, List.append_nil]; exact List.Perm.refl _
  | cons named rest ih =>
      have hrest := ih (g.push named.1 named.2)
      refine hrest.trans ?_
      rw [List.map_cons, List.append_cons]
      exact (all_push g named.1 named.2).append_right _

/-- The size counts the states in all groups. -/
theorem size_eq_length_all (g : StepGroups) : g.size = g.all.length := by
  obtain ⟨groups⟩ := g
  induction groups with
  | nil => rfl
  | cons group rest ih =>
      show group.2.length + size ⟨rest⟩ = (group.2 ++ all ⟨rest⟩).length
      rw [ih, List.length_append]

theorem size_pushAll (g : StepGroups) (found : List (String × FoundStep)) :
    (g.pushAll found).size = g.size + found.length := by
  rw [size_eq_length_all, (all_pushAll g found).length_eq, List.length_append, List.length_map,
    size_eq_length_all]

end StepGraph.Template.StepGroups
