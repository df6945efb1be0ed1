/-
The name that is made up for an inserted state is free.

`fresh` tries the base itself and then the base with the numbers from 2 on.
These names differ from each other, so no more of them in a row can be taken
than names are taken at all.  `fresh` looks at enough numbers to get behind
those, and the first name that is free is the one it finds.
-/
import Mathlib.Data.List.Dedup
import Mathlib.Data.List.Nodup
import Mathlib.Data.Nat.Find
import StepGraph.Plan.Names

namespace StepGraph.Plan

/-- A base is continued differently by different numbers. -/
theorem numbered_injective (base : String) {m n : Nat}
    (h : base ++ toString m = base ++ toString n) : m = n := by
  have hd : toString m = toString n := (String.append_right_inj base).mp h
  have hv := congrArg (fun digits : String => Nat.ofDigitChars 10 digits.toList 0) hd
  simpa [Nat.toString_eq_ofList_toDigits] using hv

theorem numbered_ne_base (base : String) (n : Nat) : base ++ toString n ≠ base := by
  intro h
  have hn : toString n = "" := (String.append_right_inj base).mp (h.trans String.append_empty.symm)
  have hl := congrArg String.length hn
  rw [Nat.toString_eq_ofList_toDigits] at hl
  have hp := Nat.length_toDigits_pos (b := 10) (n := n)
  simp at hl

/-- The names that are tried for a base, in order: the base itself, and then the base with the
numbers from 2 on. -/
def candidate (base : String) : Nat → String
  | 0 => base
  | n + 1 => base ++ toString (n + 2)

theorem candidate_injective (base : String) : Function.Injective (candidate base) := by
  intro m n h
  cases m with
  | zero =>
      cases n with
      | zero => rfl
      | succ n => exact absurd h.symm (numbered_ne_base base _)
  | succ m =>
      cases n with
      | zero => exact absurd h (numbered_ne_base base _)
      | succ n =>
          have := numbered_injective base h
          omega

namespace Names

theorem taken_iff {names : Names} {name : String} :
    names.taken name = true ↔ name ∈ names.claimed ++ names.authored := by
  simp [taken]

theorem taken_eq_false_iff {names : Names} {name : String} :
    names.taken name = false ↔ name ∉ names.claimed ∧ name ∉ names.authored := by
  simp [taken]

/-- How many names are taken, each counted once. -/
def count (names : Names) : Nat := (names.claimed ++ names.authored).dedup.length

theorem count_le (names : Names) :
    names.count ≤ names.claimed.length + names.authored.length := by
  rw [← List.length_append]
  exact (List.dedup_sublist _).length_le

/-- In front of the first free candidate stand at most as many as names are taken. -/
theorem le_count_of_taken {names : Names} {base : String} {n : Nat}
    (h : ∀ k < n, names.taken (candidate base k) = true) : n ≤ names.count := by
  have hnodup : ((List.range n).map (candidate base)).Nodup :=
    List.nodup_range.map (candidate_injective base)
  have hsub : (List.range n).map (candidate base) ⊆ (names.claimed ++ names.authored).dedup := by
    intro name hm
    obtain ⟨k, hk, rfl⟩ := List.mem_map.mp hm
    exact List.mem_dedup.mpr (taken_iff.mp (h k (List.mem_range.mp hk)))
  have hlen := hnodup.length_le_of_subset hsub
  rwa [List.length_map, List.length_range] at hlen

theorem exists_free (names : Names) (base : String) :
    ∃ n, names.taken (candidate base n) = false := by
  by_contra hall
  have htaken : ∀ k < names.count + 1, names.taken (candidate base k) = true :=
    fun k _ => Bool.not_eq_false _ |>.mp fun hf => hall ⟨k, hf⟩
  have := le_count_of_taken htaken
  omega

/-- The search stops at the first free number within its reach. -/
theorem numbered_eq {names : Names} {base : String} {n : Nat}
    (hn : names.taken (base ++ toString n) = false) :
    ∀ (fuel count : Nat), count ≤ n → n ≤ count + fuel →
      (∀ k, count ≤ k → k < n → names.taken (base ++ toString k) = true) →
      names.numbered base fuel count = base ++ toString n := by
  intro fuel
  induction fuel with
  | zero =>
      intro count hc hf _
      have : count = n := by omega
      rw [this, numbered]
  | succ fuel ih =>
      intro count hc hf htaken
      rw [numbered]
      by_cases he : count = n
      · rw [he, hn, if_neg Bool.false_ne_true]
      · rw [htaken count (Nat.le_refl _) (by omega), if_pos rfl]
        exact ih (count + 1) (by omega) (by omega) fun k hk => htaken k (by omega)

/-- Behind the base the candidates are the numbered names. -/
theorem taken_numbered {names : Names} {base : String} {n : Nat}
    (h : ∀ k < n + 1, names.taken (candidate base k) = true) :
    ∀ k, 2 ≤ k → k < n + 2 → names.taken (base ++ toString k) = true := by
  intro k hk hlt
  have hcandidate := h (k - 2 + 1) (by omega)
  rwa [candidate, Nat.sub_add_cancel hk] at hcandidate

/-- The fresh name is the first candidate that is free. -/
theorem fresh_eq_candidate {names : Names} {base : String} {n : Nat}
    (hfree : names.taken (candidate base n) = false)
    (htaken : ∀ k < n, names.taken (candidate base k) = true) :
    names.fresh base = candidate base n := by
  cases n with
  | zero =>
      have hbase : names.taken base = false := hfree
      rw [fresh, hbase, if_neg Bool.false_ne_true]
      rfl
  | succ n =>
      have hbase : names.taken base = true := htaken 0 (Nat.succ_pos n)
      have hcount := le_count_of_taken htaken
      have hreach := names.count_le
      rw [fresh, hbase, if_pos rfl]
      exact numbered_eq hfree _ 2 (by omega) (by omega) (taken_numbered htaken)

theorem fresh_spec (names : Names) (base : String) :
    ∃ n, names.fresh base = candidate base n ∧ names.taken (candidate base n) = false ∧
      ∀ k < n, names.taken (candidate base k) = true := by
  have hex := names.exists_free base
  have htaken : ∀ k < Nat.find hex, names.taken (candidate base k) = true :=
    fun k hk => Bool.not_eq_false _ |>.mp (Nat.find_min hex hk)
  exact ⟨Nat.find hex, fresh_eq_candidate (Nat.find_spec hex) htaken, Nat.find_spec hex, htaken⟩

theorem taken_fresh (names : Names) (base : String) :
    names.taken (names.fresh base) = false := by
  obtain ⟨n, he, hn, -⟩ := names.fresh_spec base
  rw [he, hn]

end Names

end StepGraph.Plan
