/-
The search for a free name comes to an end.

The search looks at one candidate after the other, with a number of 32 bits
that it counts up, until it gets to one that is free.  It has no bound of its
own.  But the candidates that it leaves behind are taken and differ from each
other, so it makes no more rounds than names are taken.  With fewer names than
the number has values it never gets to the largest of these, and what it finds
is the fresh name.
-/
import Mathlib.Algebra.Group.Nat.Defs
import StepGraph.Proofs.FreshNames

namespace StepGraph.Plan

/-- A search under way: the name that is looked at, and the number for the next one. -/
structure NameSearch where
  name : String
  number : Int32

namespace NameSearch

/-- One round: if its name is taken the search goes on to the base with its number. -/
def next? (names : Names) (base : String) (search : NameSearch) : Option NameSearch :=
  if names.taken search.name then some ⟨base ++ toString search.number, search.number + 1⟩
  else none

/-- What a search for a base gets to in a number of rounds. -/
inductive Reaches (names : Names) (base : String) : Nat → NameSearch → Prop
  | start : Reaches names base 0 ⟨base, 2⟩
  | round {rounds : Nat} {search further : NameSearch} : Reaches names base rounds search →
      search.next? names base = some further → Reaches names base (rounds + 1) further

/-- The search that looks at a candidate, with the number of the next one. -/
def ofCandidate (base : String) (n : Nat) : NameSearch :=
  ⟨candidate base n, Int32.ofNat (n + 2)⟩

section Rounds

variable {names : Names} {base : String}

theorem toString_ofNat {n : Nat} (h : n < 2 ^ 31) : toString (Int32.ofNat n) = toString n := by
  show toString (Int32.ofNat n).toInt = toString n
  rw [Int32.toInt_ofNat_of_lt h]
  rfl

/-- From a candidate that is taken a round leads to the next one. -/
theorem next?_ofCandidate {n : Nat} (hn : n + 2 < 2 ^ 31)
    (h : names.taken (candidate base n) = true) :
    (ofCandidate base n).next? names base = some (ofCandidate base (n + 1)) := by
  rw [next?, ofCandidate, h, if_pos rfl, toString_ofNat hn, ofCandidate, candidate,
    Nat.add_right_comm, Int32.ofNat_add (n + 2) 1]
  rfl

theorem next?_eq_none_iff {search : NameSearch} :
    search.next? names base = none ↔ names.taken search.name = false := by
  rw [next?]
  cases names.taken search.name with
  | true => simp
  | false => simp

/-- In each round a search looks at the next candidate, and all before it are taken. -/
theorem Reaches.eq_ofCandidate (hsize : names.count < 2 ^ 31 - 3) {rounds : Nat}
    {search : NameSearch} (h : Reaches names base rounds search) :
    search = ofCandidate base rounds ∧ ∀ k < rounds, names.taken (candidate base k) = true := by
  induction h with
  | start => exact ⟨rfl, fun k hk => absurd hk (Nat.not_lt_zero k)⟩
  | @round rounds search further _ hnext ih =>
      obtain ⟨rfl, htaken⟩ := ih
      have hcandidate : names.taken (candidate base rounds) = true := by
        by_contra hfree
        rw [next?_eq_none_iff.mpr (Bool.eq_false_iff.mpr hfree)] at hnext
        cases hnext
      have hall : ∀ k < rounds + 1, names.taken (candidate base k) = true := by
        intro k hk
        rcases Nat.lt_succ_iff_lt_or_eq.mp hk with hlt | rfl
        · exact htaken k hlt
        · exact hcandidate
      -- the number is still small, since so many candidates are taken
      have hcount := Names.le_count_of_taken hall
      rw [next?_ofCandidate (by omega) hcandidate] at hnext
      exact ⟨(Option.some.inj hnext).symm, hall⟩

/-- A search gets to every candidate in front of which all are taken. -/
theorem reaches_ofCandidate (hsize : names.count < 2 ^ 31 - 3) :
    ∀ {n : Nat}, (∀ k < n, names.taken (candidate base k) = true) →
      Reaches names base n (ofCandidate base n)
  | 0, _ => .start
  | n + 1, h => by
      have hcount := Names.le_count_of_taken h
      have hbefore := reaches_ofCandidate hsize fun k hk => h k (Nat.lt_succ_of_lt hk)
      exact hbefore.round (next?_ofCandidate (by omega) (h n (Nat.lt_succ_self n)))

end Rounds

end NameSearch

open NameSearch (Reaches)

/-- A name is made up for a base by a search that ends, and is claimed. -/
structure MakesName (names : Names) (base : String) (made : String × Names) : Prop where
  /-- The search makes at most as many rounds as names are taken, and its number is always that of
  the next candidate. -/
  bounded : ∀ rounds search, Reaches names base rounds search →
    rounds ≤ names.count ∧ search.number.toInt = rounds + 2
  ends : ∃ rounds search, Reaches names base rounds search ∧ search.next? names base = none
  found : ∀ rounds search, Reaches names base rounds search → search.next? names base = none →
    search.name = made.1
  /-- The name is the base if that is free, and otherwise the base with the least number from 2 on
  that makes it so. -/
  of_free : names.taken base = false → made.1 = base
  of_taken : names.taken base = true → ∃ n, 2 ≤ n ∧ made.1 = base ++ toString n ∧
    names.taken (base ++ toString n) = false ∧
    ∀ k, 2 ≤ k → k < n → names.taken (base ++ toString k) = true
  unclaimed : made.1 ∉ names.claimed
  unwritten : made.1 ∉ names.authored
  /-- It is claimed, and nothing else changes. -/
  claimed : made.2.claimed = made.1 :: names.claimed
  authored : made.2.authored = names.authored

/-- With fewer names than there are numbers of 32 bits, a fresh name is found and claimed. -/
theorem claimFresh_makesName {names : Names} (hsize : names.count < 2 ^ 31 - 3) (base : String) :
    MakesName names base (names.claimFresh base) := by
  obtain ⟨n, hfresh, hfree, htaken⟩ := names.fresh_spec base
  obtain ⟨hclaimed, hauthored⟩ := Names.taken_eq_false_iff.mp (names.taken_fresh base)
  refine ⟨?_, ?_, ?_, ?_, ?_, hclaimed, hauthored, rfl, rfl⟩
  · intro rounds search hreaches
    obtain ⟨rfl, hbefore⟩ := hreaches.eq_ofCandidate hsize
    have hcount := Names.le_count_of_taken hbefore
    refine ⟨hcount, ?_⟩
    exact Int32.toInt_ofNat_of_lt (by omega)
  · have hreaches := NameSearch.reaches_ofCandidate hsize htaken
    exact ⟨n, _, hreaches, NameSearch.next?_eq_none_iff.mpr hfree⟩
  · intro rounds search hreaches hend
    obtain ⟨rfl, hbefore⟩ := hreaches.eq_ofCandidate hsize
    exact (Names.fresh_eq_candidate (NameSearch.next?_eq_none_iff.mp hend) hbefore).symm
  · intro hbase
    exact Names.fresh_eq_candidate (n := 0) hbase fun k hk => absurd hk (Nat.not_lt_zero k)
  · intro hbase
    cases n with
    | zero => exact absurd (hbase.symm.trans hfree) (by decide)
    | succ n =>
        exact ⟨n + 2, Nat.le_add_left 2 n, hfresh, hfree, Names.taken_numbered htaken⟩

/-- Names of which some continue a base that ends in a digit, and one is empty. -/
def crowdedNames : Names := ⟨["Fan12", "Fan1"], ["Fan1", "Fan13", ""]⟩

/-- Behind `Fan1` the numbers 2 and 3 are taken, and behind the empty name none is. -/
theorem crowdedNames_makesName :
    crowdedNames.count < 2 ^ 31 - 3 ∧
      MakesName crowdedNames "Fan1" ("Fan14", ⟨["Fan14", "Fan12", "Fan1"], ["Fan1", "Fan13", ""]⟩) ∧
      MakesName crowdedNames "" ("2", ⟨["2", "Fan12", "Fan1"], ["Fan1", "Fan13", ""]⟩) := by
  have hsize : crowdedNames.count < 2 ^ 31 - 3 := by decide
  exact ⟨hsize, claimFresh_makesName hsize "Fan1", claimFresh_makesName hsize ""⟩

end StepGraph.Plan
