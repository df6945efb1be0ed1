/-
States grouped by their type.

Groups stand in the order of their types' characters, and each keeps its
states in the order in which they were found.
-/
import StepGraph.Document

namespace StepGraph.Template

/-- A state of a graph and its name. -/
structure FoundStep where
  name : String
  definition : Document

/-- Found states by type.  Types are in ascending order, and no group is empty. -/
structure StepGroups where
  groups : List (String × List FoundStep)

namespace StepGroups

/-- No groups. -/
def empty : StepGroups := ⟨[]⟩

/-- Adds a state behind those of its type, opening the type's group if needed. -/
def pushTo (type : String) (found : FoundStep) :
    List (String × List FoundStep) → List (String × List FoundStep)
  | [] => [(type, [found])]
  | (other, steps) :: rest =>
      if type = other then (other, steps ++ [found]) :: rest
      else if type < other then (type, [found]) :: (other, steps) :: rest
      else (other, steps) :: pushTo type found rest

/-- Adds a state behind those of its type. -/
def push (g : StepGroups) (type : String) (found : FoundStep) : StepGroups :=
  ⟨pushTo type found g.groups⟩

/-- The states of a type. -/
def get (g : StepGroups) (type : String) : List FoundStep :=
  ((g.groups.find? fun group => group.1 = type).map Prod.snd).getD []

/-- The number of states in all groups. -/
def size (g : StepGroups) : Nat := g.groups.foldr (fun group count => group.2.length + count) 0

/-- Whether there is no group. -/
def isEmpty (g : StepGroups) : Bool := g.groups.isEmpty

/-- A found state as a document. -/
def stepDocument (found : FoundStep) : Document :=
  .object [("name", .string found.name), ("definition", found.definition)]

/-- The groups as a document. -/
def toDocument (g : StepGroups) : Document :=
  .object (g.groups.map fun group => (group.1, .list (group.2.map stepDocument)))

end StepGroups

end StepGraph.Template
