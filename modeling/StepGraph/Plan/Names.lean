/-
The names of a plan's states.

Every state of a plan, at any depth, has a name of its own.  `Names` holds
the names claimed so far and the names that the author wrote anywhere in the
plan; the latter are collected before anything is compiled, so that the name
made up for an inserted state is never one that the author uses further on.
-/
import StepGraph.Plan.Shape

namespace StepGraph.Plan

/-- The names that a plan's states have or will have. -/
structure Names where
  /-- Names of steps and inserted states reached so far. -/
  claimed : List String
  /-- Names written anywhere in the plan. -/
  authored : List String

/-- The name that an entry carries, as far as it is text. -/
def ownNames (fields : Fields Document) : List String :=
  match fields.get? "Name" with
  | some (.string name) => [name]
  | _ => []

mutual

/-- The names written in a list of entries and in the lists that their shapes
compile; entries that are no steps are passed over. -/
def authoredNames : List Document → List String
  | [] => []
  | entry :: rest => entryNames entry ++ authoredNames rest

/-- The names written in one entry. -/
def entryNames : Document → List String
  | .object fields =>
      ownNames fields ++
        match Shape.of fields with
        | .plain => []
        | .parallel => branchesNames fields
        | .choice => slotNames .isTrue fields ++ slotNames .isFalse fields
  | _ => []

/-- The names written in the list in a slot. -/
def slotNames (slot : Slot) : List (String × Document) → List String
  | [] => []
  | (key, value) :: rest => if key = slot.text then listNames value else slotNames slot rest

/-- The names written in the lists in `Branches`. -/
def branchesNames : List (String × Document) → List String
  | [] => []
  | (key, value) :: rest =>
      if key = Slot.branches.text then branchListNames value else branchesNames rest

/-- The names written in a list of branches. -/
def branchListNames : Document → List String
  | .list branches => eachBranchNames branches
  | _ => []

/-- The names written in each branch. -/
def eachBranchNames : List Document → List String
  | [] => []
  | branch :: rest => listNames branch ++ eachBranchNames rest

/-- The names written in a nested list. -/
def listNames : Document → List String
  | .list steps => authoredNames steps
  | _ => []

end

namespace Names

/-- Nothing claimed yet, and all that the steps' author wrote. -/
def ofPlan (steps : List Document) : Names := ⟨[], authoredNames steps⟩

/-- Whether a state may not be given the name any more. -/
def taken (names : Names) (name : String) : Bool :=
  names.claimed.contains name || names.authored.contains name

/-- Claims the name of a step. -/
def claim (names : Names) (name : String) : Except Fault Names :=
  if names.claimed.contains name then .error (.duplicateName name)
  else .ok { names with claimed := name :: names.claimed }

/-- The first of `base` with the numbers from `count` on that is not taken, looking at
most at `fuel` of them. -/
def numbered (names : Names) (base : String) : Nat → Nat → String
  | 0, count => base ++ toString count
  | fuel + 1, count =>
      if names.taken (base ++ toString count) then numbered names base fuel (count + 1)
      else base ++ toString count

/-- A name that is not taken: `base` itself, or `base` with the least number from 2 on
that makes it so.  Of more numbers than there are names, one is left. -/
def fresh (names : Names) (base : String) : String :=
  if names.taken base then
    numbered names base (names.claimed.length + names.authored.length) 2
  else base

/-- Claims a fresh name for an inserted state. -/
def claimFresh (names : Names) (base : String) : String × Names :=
  let name := names.fresh base
  (name, { names with claimed := name :: names.claimed })

end Names

end StepGraph.Plan
