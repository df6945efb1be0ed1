/-
Compiling authored plans into state graphs.

A plan is a list of steps.  Each step becomes a state under its name; a state
leads to the one listed after it by `Next`, and the last has `End`.  The
lists in a fan-out's `Branches` and in a choice's `IsTrue` and `IsFalse` are
compiled the same way into graphs of their own.  Unless the author put a
merge step right after a fan-out, a merge state is inserted there.

The checks of one step come in a fixed order, and a step's nested lists are
compiled before the step behind it is looked at, so the first fault in
authored order is the one reported.
-/
import StepGraph.Plan.Names
import StepGraph.Plan.Recorded

namespace StepGraph.Plan

/-- The fields of a state. -/
abbrev State := Fields Document

/-- Settings of the compiler. -/
structure Compiler where
  /-- The type that a merge step has, authored or inserted. -/
  mergeType : String := "AttiniMergeOutput"
  /-- What is appended to a fan-out's name to name the merge state behind it. -/
  mergeSuffix : String := "Merge"

/-- The name of a step. -/
def stepName (scope : Scope) (index : Nat) (after : Option String) (fields : Fields Document) :
    Except Fault String :=
  match fields.get? "Name" with
  | none => .error (.unnamed scope after)
  | some (.string name) => if name = "" then .error (.badName scope index) else .ok name
  | some _ => .error (.badName scope index)

/-- The check that a step leaves it to its place what follows it. -/
def checkChain (name : String) (fields : Fields Document) : Except Fault Unit :=
  if fields.has "Next" then .error (.chained name "Next")
  else if fields.has "End" then .error (.chained name "End")
  else .ok ()

/-- Claims the name of a step, on record. -/
def Names.recordClaim (names : Names) (name : String) : Recorded Fault Names :=
  ⟨[.claim name], names.claim name⟩

/-- All checks of an entry before its nested steps: it is a step with a name of its own,
and its fields agree with its shape.  Gives the name, which is now claimed. -/
def recordEntry (scope : Scope) (index : Nat) (after : Option String) (names : Names) :
    Document → Recorded Fault (String × Names)
  | .object fields => do
      let name ← .silent (stepName scope index after fields)
      let names ← names.recordClaim name
      .silent (checkChain name fields)
      .silent (checkShape name fields)
      return (name, names)
  | entry => .silent (.error (.notAStep scope index entry.kind))

/-- Whether an entry has the shape of a fan-out. -/
def isParallel : Document → Bool
  | .object fields => Shape.of fields = .parallel
  | _ => false

/-- Whether an entry is an authored step of a type. -/
def hasType (type : String) (entry : Document) : Bool :=
  entry.textAt? "Type" = some type

/-- The state inserted between a step and the entries behind it: a merge state behind a
fan-out that no merge step follows, otherwise none. -/
def Compiler.inserted (c : Compiler) (name : String) (entry : Document) (rest : List Document)
    (names : Names) : List (String × State) × Names :=
  if isParallel entry && !(rest.head?.any (hasType c.mergeType)) then
    let (merge, names) := names.claimFresh (name ++ c.mergeSuffix)
    ([(merge, [("Type", .string c.mergeType)])], names)
  else ([], names)

/-- Inserts the state, and records the name that was made up for it. -/
def Compiler.recordInserted (c : Compiler) (name : String) (entry : Document)
    (rest : List Document) (names : Names) : Recorded Fault (List (String × State) × Names) :=
  let inserted := c.inserted name entry rest names
  ⟨inserted.1.map fun named => .make (name ++ c.mergeSuffix) named.1, .ok inserted⟩

/-- Stores chained states by name behind those already there: each leads to the next, and
the last ends. -/
def linkInto (states : Fields Document) : List (String × State) → Fields Document
  | [] => states
  | [(name, state)] => states.insert name (.object (state.insert "End" (.bool true)))
  | (name, state) :: (next, after) :: rest =>
      linkInto (states.insert name (.object (state.insert "Next" (.string next))))
        ((next, after) :: rest)

/-- Chains states: each leads to the next, and the last ends. -/
def link (sequence : List (String × State)) : Fields Document := linkInto [] sequence

/-- The graph of a sequence of states, which starts at its first. -/
def graph (scope : Scope) : List (String × State) → Except Fault Document
  | [] => .error (.emptyList scope)
  | (name, state) :: rest =>
      .ok (.object
        [("StartAt", .string name), ("States", .object (link ((name, state) :: rest)))])

/-- The fields of a state in which nested lists are replaced by their graphs. -/
def fill (slot : Slot) (compiled : Option Document) (fields : Fields Document) :
    Fields Document :=
  match compiled with
  | some value => fields.replace slot.text value
  | none => fields

mutual

/-- The states of a step list from the entry at `index` on; `after` is the name of the
step before it. -/
def Compiler.recordSequence (c : Compiler) (scope : Scope) (index : Nat) (after : Option String)
    (names : Names) : List Document → Recorded Fault (List (String × State) × Names)
  | [] => return ([], names)
  | entry :: rest => do
      let (name, names) ← recordEntry scope index after names entry
      let (state, names) ← c.recordState name names entry
      let (merge, names) ← c.recordInserted name entry rest names
      let (states, names) ← c.recordSequence scope (index + 1) (some name) names rest
      return ((name, state) :: merge ++ states, names)

/-- The state of a checked step, not yet chained. -/
def Compiler.recordState (c : Compiler) (name : String) (names : Names) :
    Document → Recorded Fault (State × Names)
  | .object fields =>
      match Shape.of fields with
      | .plain => return (Fields.erase fields "Name", names)
      | .parallel => do
          let (branches, names) ← c.recordBranches name names fields
          let state := fill .branches branches (Fields.erase fields "Name")
          return (state.insert "Type" (.string "Parallel"), names)
      | .choice => do
          let (whenTrue, names) ← c.recordSlot name .isTrue names fields
          let (whenFalse, names) ← c.recordSlot name .isFalse names fields
          let state := fill .isTrue whenTrue (Fields.erase fields "Name")
          let state := fill .isFalse whenFalse state
          return (state.insert "Type" (.string "Choice"), names)
  | _ => return ([], names)

/-- The graph of the list in a slot, none if the step has no such field. -/
def Compiler.recordSlot (c : Compiler) (name : String) (slot : Slot) (names : Names) :
    List (String × Document) → Recorded Fault (Option Document × Names)
  | [] => return (none, names)
  | (key, value) :: rest =>
      if key = slot.text then do
        let (compiled, names) ← c.recordSubPlan name slot names value
        return (some compiled, names)
      else c.recordSlot name slot names rest

/-- The graphs of the lists in `Branches`. -/
def Compiler.recordBranches (c : Compiler) (name : String) (names : Names) :
    List (String × Document) → Recorded Fault (Option Document × Names)
  | [] => return (none, names)
  | (key, value) :: rest =>
      if key = Slot.branches.text then do
        let (compiled, names) ← c.recordBranchList name names value
        return (some compiled, names)
      else c.recordBranches name names rest

/-- The graphs of a list of branches, which must not be empty. -/
def Compiler.recordBranchList (c : Compiler) (name : String) (names : Names) :
    Document → Recorded Fault (Document × Names)
  | .list [] => .silent (.error (.emptyList (.slot name .branches)))
  | .list (first :: rest) => do
      let (graphs, names) ← c.recordEachBranch name 0 names (first :: rest)
      return (.list graphs, names)
  | other => .silent (.error (.notASubPlan name .branches other.kind))

/-- The graphs of the branches from the one at `index` on. -/
def Compiler.recordEachBranch (c : Compiler) (name : String) (index : Nat) (names : Names) :
    List Document → Recorded Fault (List Document × Names)
  | [] => return ([], names)
  | branch :: rest => do
      let (compiled, names) ← c.recordSubPlan name (.branch index) names branch
      let (graphs, names) ← c.recordEachBranch name (index + 1) names rest
      return (compiled :: graphs, names)

/-- The graph of a nested list. -/
def Compiler.recordSubPlan (c : Compiler) (name : String) (slot : Slot) (names : Names) :
    Document → Recorded Fault (Document × Names)
  | .list steps => do
      let (states, names) ← c.recordSequence (.slot name slot) 0 none names steps
      let compiled ← .silent (graph (.slot name slot) states)
      return (compiled, names)
  | other => .silent (.error (.notASubPlan name slot other.kind))

end

/-- Compiles a plan into its graph: `StartAt` and `States`. -/
def Compiler.recordDefinition (c : Compiler) : Document → Recorded Fault Document
  | .list steps => do
      let (states, _) ← c.recordSequence .root 0 none (.ofPlan steps) steps
      .silent (graph .root states)
  | plan => .silent (.error (.notAList plan.kind))

def Compiler.definition (c : Compiler) (plan : Document) : Except Fault Document :=
  (c.recordDefinition plan).result

/-- Compiles a plan into the states of its graph. -/
def Compiler.states (c : Compiler) (plan : Document) : Except Fault Document := do
  let definition ← c.definition plan
  return (definition.field? "States").getD (.object [])

/-! ## Results without their records

What the compiler computes does not depend on the record: the results follow from each other like
the recorded computations do. -/

section Results

variable (c : Compiler) (name : String) (names : Names)

def checkEntry (scope : Scope) (index : Nat) (after : Option String) (names : Names)
    (entry : Document) : Except Fault (String × Names) :=
  (recordEntry scope index after names entry).result

def Compiler.sequence (scope : Scope) (index : Nat) (after : Option String) (names : Names)
    (steps : List Document) : Except Fault (List (String × State) × Names) :=
  (c.recordSequence scope index after names steps).result

def Compiler.state (entry : Document) : Except Fault (State × Names) :=
  (c.recordState name names entry).result

def Compiler.slot (slot : Slot) (names : Names) (fields : List (String × Document)) :
    Except Fault (Option Document × Names) :=
  (c.recordSlot name slot names fields).result

def Compiler.branches (fields : List (String × Document)) :
    Except Fault (Option Document × Names) :=
  (c.recordBranches name names fields).result

def Compiler.branchList (value : Document) : Except Fault (Document × Names) :=
  (c.recordBranchList name names value).result

def Compiler.eachBranch (index : Nat) (names : Names) (branches : List Document) :
    Except Fault (List Document × Names) :=
  (c.recordEachBranch name index names branches).result

def Compiler.subPlan (slot : Slot) (names : Names) (value : Document) :
    Except Fault (Document × Names) :=
  (c.recordSubPlan name slot names value).result

theorem checkEntry_object (scope : Scope) (index : Nat) (after : Option String) (names : Names)
    (fields : Fields Document) :
    checkEntry scope index after names (.object fields) = (do
      let name ← stepName scope index after fields
      let names ← names.claim name
      checkChain name fields
      checkShape name fields
      return (name, names)) := by
  simp only [checkEntry, recordEntry, Recorded.result_bind, Recorded.result_silent,
    Recorded.result_pure]
  rfl

theorem Compiler.sequence_nil (scope : Scope) (index : Nat) (after : Option String)
    (names : Names) : c.sequence scope index after names [] = .ok ([], names) := rfl

theorem Compiler.sequence_cons (scope : Scope) (index : Nat) (after : Option String)
    (names : Names) (entry : Document) (rest : List Document) :
    c.sequence scope index after names (entry :: rest) = (do
      let (name, names) ← checkEntry scope index after names entry
      let (state, names) ← c.state name names entry
      let (merge, names) := c.inserted name entry rest names
      let (states, names) ← c.sequence scope (index + 1) (some name) names rest
      return ((name, state) :: merge ++ states, names)) := by
  refine Recorded.result_bind_congr rfl ?_
  rintro ⟨name, added⟩
  refine Recorded.result_bind_congr rfl ?_
  rintro ⟨state, inner⟩
  refine (Recorded.result_bind _ _).trans ?_
  exact Recorded.result_bind_congr rfl fun _ => rfl

theorem Compiler.state_object (fields : Fields Document) :
    c.state name names (.object fields) =
      match Shape.of fields with
      | .plain => .ok (Fields.erase fields "Name", names)
      | .parallel => do
          let (branches, names) ← c.branches name names fields
          let state := fill .branches branches (Fields.erase fields "Name")
          return (state.insert "Type" (.string "Parallel"), names)
      | .choice => do
          let (whenTrue, names) ← c.slot name .isTrue names fields
          let (whenFalse, names) ← c.slot name .isFalse names fields
          let state := fill .isTrue whenTrue (Fields.erase fields "Name")
          let state := fill .isFalse whenFalse state
          return (state.insert "Type" (.string "Choice"), names) := by
  rw [Compiler.state, Compiler.recordState]
  cases Shape.of fields with
  | plain => rfl
  | parallel => exact Recorded.result_bind_congr rfl fun _ => rfl
  | choice =>
      refine Recorded.result_bind_congr rfl ?_
      rintro ⟨whenTrue, inner⟩
      exact Recorded.result_bind_congr rfl fun _ => rfl

theorem Compiler.slot_nil (slot : Slot) : c.slot name slot names [] = .ok (none, names) := rfl

theorem Compiler.slot_cons (slot : Slot) (key : String) (value : Document)
    (rest : List (String × Document)) :
    c.slot name slot names ((key, value) :: rest) =
      if key = slot.text then do
        let (compiled, names) ← c.subPlan name slot names value
        return (some compiled, names)
      else c.slot name slot names rest := by
  rw [Compiler.slot, Compiler.recordSlot]
  split
  · exact Recorded.result_bind_congr rfl fun _ => rfl
  · rfl

theorem Compiler.branches_nil : c.branches name names [] = .ok (none, names) := rfl

theorem Compiler.branches_cons (key : String) (value : Document)
    (rest : List (String × Document)) :
    c.branches name names ((key, value) :: rest) =
      if key = Slot.branches.text then do
        let (compiled, names) ← c.branchList name names value
        return (some compiled, names)
      else c.branches name names rest := by
  rw [Compiler.branches, Compiler.recordBranches]
  split
  · exact Recorded.result_bind_congr rfl fun _ => rfl
  · rfl

theorem Compiler.branchList_nil :
    c.branchList name names (.list []) = .error (.emptyList (.slot name .branches)) := rfl

theorem Compiler.branchList_cons (first : Document) (rest : List Document) :
    c.branchList name names (.list (first :: rest)) = (do
      let (graphs, names) ← c.eachBranch name 0 names (first :: rest)
      return (.list graphs, names)) :=
  Recorded.result_bind_congr rfl fun _ => rfl

theorem Compiler.eachBranch_nil (index : Nat) :
    c.eachBranch name index names [] = .ok ([], names) := rfl

theorem Compiler.eachBranch_cons (index : Nat) (branch : Document) (rest : List Document) :
    c.eachBranch name index names (branch :: rest) = (do
      let (compiled, names) ← c.subPlan name (.branch index) names branch
      let (graphs, names) ← c.eachBranch name (index + 1) names rest
      return (compiled :: graphs, names)) := by
  refine Recorded.result_bind_congr rfl ?_
  rintro ⟨compiled, inner⟩
  exact Recorded.result_bind_congr rfl fun _ => rfl

theorem Compiler.subPlan_list (slot : Slot) (steps : List Document) :
    c.subPlan name slot names (.list steps) = (do
      let (states, names) ← c.sequence (.slot name slot) 0 none names steps
      return (← graph (.slot name slot) states, names)) := by
  refine Recorded.result_bind_congr rfl ?_
  rintro ⟨states, inner⟩
  exact Recorded.result_bind_congr rfl fun _ => rfl

theorem Compiler.definition_list (steps : List Document) :
    c.definition (.list steps) = (do
      let (states, _) ← c.sequence .root 0 none (.ofPlan steps) steps
      graph .root states) :=
  Recorded.result_bind_congr rfl fun _ => rfl

end Results

end StepGraph.Plan
