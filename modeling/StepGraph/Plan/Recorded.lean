/-
Computations that record what they do with names.

A compilation claims the names of its steps and makes up names for the states
that it inserts.  It keeps a record of both, in order and up to its fault if it
has one.  So what was done is known of a compilation that fails as well, and
the user can be warned of each state that did not get the name it was to have.
-/
namespace StepGraph.Plan

/-- What is done with a name. -/
inductive NameUse where
  /-- It is claimed for a step, which fails if it is claimed already. -/
  | claim (name : String)
  /-- It is made up for an inserted state, from a base. -/
  | make (base name : String)

def NameUse.name : NameUse → String
  | .claim name => name
  | .make _ name => name

/-- A warning: the name that an inserted state was to have is in use, so it has another. -/
structure Renaming where
  base : String
  name : String
deriving DecidableEq

def Renaming.message : String := "synthetic state name already in use, renamed"

def NameUse.renaming? : NameUse → Option Renaming
  | .claim _ => none
  | .make base name => if name = base then none else some ⟨base, name⟩

/-- The warnings about inserted states, in order. -/
def renamings (uses : List NameUse) : List Renaming := uses.filterMap NameUse.renaming?

/-- A computation with the names that it uses, up to its fault if it has one. -/
structure Recorded (ε α : Type) where
  uses : List NameUse
  result : Except ε α

namespace Recorded

variable {ε ε' α β : Type}

/-- A computation that uses no names. -/
def silent (result : Except ε α) : Recorded ε α := ⟨[], result⟩

/-- A computation and what follows it, unless it fails. -/
def andThen (run : Recorded ε α) (next : α → Recorded ε β) : Recorded ε β :=
  match run.result with
  | .ok a =>
      let behind := next a
      ⟨run.uses ++ behind.uses, behind.result⟩
  | .error fault => ⟨run.uses, .error fault⟩

instance : Monad (Recorded ε) where
  pure a := ⟨[], .ok a⟩
  bind := andThen

def map (f : α → β) (run : Recorded ε α) : Recorded ε β := ⟨run.uses, run.result.map f⟩

def mapError (f : ε → ε') (run : Recorded ε α) : Recorded ε' α :=
  ⟨run.uses, run.result.mapError f⟩

@[simp] theorem result_silent (result : Except ε α) : (silent result).result = result := rfl

@[simp] theorem result_pure (a : α) : (pure a : Recorded ε α).result = .ok a := rfl

@[simp] theorem result_mapError (f : ε → ε') (run : Recorded ε α) :
    (run.mapError f).result = run.result.mapError f := rfl

theorem bind_of_ok {run : Recorded ε α} {a : α} (h : run.result = .ok a)
    (next : α → Recorded ε β) :
    run >>= next = ⟨run.uses ++ (next a).uses, (next a).result⟩ := by
  show run.andThen next = _
  rw [andThen, h]

theorem bind_of_error {run : Recorded ε α} {fault : ε} (h : run.result = .error fault)
    (next : α → Recorded ε β) : run >>= next = ⟨run.uses, .error fault⟩ := by
  show run.andThen next = _
  rw [andThen, h]

/-- The record changes nothing about the result. -/
@[simp] theorem result_bind (run : Recorded ε α) (next : α → Recorded ε β) :
    (run >>= next).result = run.result >>= fun a => (next a).result := by
  cases h : run.result with
  | error fault =>
      rw [bind_of_error h]
      rfl
  | ok a =>
      rw [bind_of_ok h]
      rfl

theorem result_bind_congr {run : Recorded ε α} {next : α → Recorded ε β} {x : Except ε α}
    {f : α → Except ε β} (hrun : run.result = x) (hnext : ∀ a, (next a).result = f a) :
    (run >>= next).result = x >>= f := by
  rw [result_bind, hrun]
  exact bind_congr hnext

theorem bind_pure (run : Recorded ε α) (f : α → β) : (run >>= fun a => pure (f a)) = run.map f := by
  cases h : run.result with
  | error fault =>
      rw [bind_of_error h, map, h]
      rfl
  | ok a =>
      rw [bind_of_ok h, map, h]
      exact congrArg (Recorded.mk · (.ok (f a))) (List.append_nil run.uses)

theorem silent_ok_bind (a : α) (next : α → Recorded ε β) : silent (.ok a) >>= next = next a :=
  bind_of_ok rfl next

theorem silent_error_bind (fault : ε) (next : α → Recorded ε β) :
    silent (.error fault) >>= next = silent (.error fault) :=
  bind_of_error rfl next

end Recorded

end StepGraph.Plan
