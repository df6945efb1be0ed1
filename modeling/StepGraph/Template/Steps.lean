/-
Searching a compiled plan for states of given types.

The search goes through the states of a graph in order.  A fan-out is never
reported, only searched through; a choice is reported if its type was asked
for, and then searched through; a state without a text in `Type` is passed
over together with all below it.
-/
import StepGraph.Template.Index
import StepGraph.Template.StepGroups

namespace StepGraph.Template

mutual

/-- Adds the wanted states among those of a graph to groups. -/
def collect (wanted : List String) (groups : StepGroups) : List (String × Document) → StepGroups
  | [] => groups
  | (name, state) :: rest => collect wanted (collectState wanted groups name state) rest

/-- Adds a state if it is wanted, and the wanted states below it. -/
def collectState (wanted : List String) (groups : StepGroups) (name : String) :
    Document → StepGroups
  | .object fields =>
      match (Document.object fields).textAt? "Type" with
      | none => groups
      | some type =>
          if type = "Parallel" then collectBranches wanted groups fields
          else
            let found : FoundStep := ⟨name, .object fields⟩
            let groups := if wanted.contains type then groups.push type found else groups
            if type = "Choice" then
              collectSlot wanted "IsFalse" (collectSlot wanted "IsTrue" groups fields) fields
            else groups
  | _ => groups

/-- Searches the graph in a field. -/
def collectSlot (wanted : List String) (slot : String) (groups : StepGroups) :
    List (String × Document) → StepGroups
  | [] => groups
  | (key, value) :: rest =>
      if key = slot then collectGraph wanted groups value else collectSlot wanted slot groups rest

/-- Searches the graphs in `Branches`. -/
def collectBranches (wanted : List String) (groups : StepGroups) :
    List (String × Document) → StepGroups
  | [] => groups
  | (key, value) :: rest =>
      if key = "Branches" then collectBranchList wanted groups value
      else collectBranches wanted groups rest

/-- Searches a list of graphs. -/
def collectBranchList (wanted : List String) (groups : StepGroups) : Document → StepGroups
  | .list branches => collectEach wanted groups branches
  | _ => groups

/-- Searches graphs one after the other. -/
def collectEach (wanted : List String) (groups : StepGroups) : List Document → StepGroups
  | [] => groups
  | branch :: rest => collectEach wanted (collectGraph wanted groups branch) rest

/-- Searches a graph, if it is one. -/
def collectGraph (wanted : List String) (groups : StepGroups) : Document → StepGroups
  | .object fields => collectStates wanted groups fields
  | _ => groups

/-- Searches the states of a graph. -/
def collectStates (wanted : List String) (groups : StepGroups) :
    List (String × Document) → StepGroups
  | [] => groups
  | (key, value) :: rest =>
      if key = "States" then collectObject wanted groups value
      else collectStates wanted groups rest

/-- Searches an object of states, if it is one. -/
def collectObject (wanted : List String) (groups : StepGroups) : Document → StepGroups
  | .object states => collect wanted groups states
  | _ => groups

end

/-- The plan's states of the wanted types; the plan must be compiled. -/
def Index.steps (index : Index) (wanted : List String) : Except Fault StepGroups := do
  let plan ← index.plan
  if plan.format = .simple then .error (.notCompiled plan.name)
  else
    match (plan.payload.field? "States").bind Document.fields? with
    | none => .error (.noStates plan.name)
    | some states => .ok (collect wanted .empty states)

end StepGraph.Template
