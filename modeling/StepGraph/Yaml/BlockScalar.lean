/-
Literal and folded block scalars.

The header may fix the indentation and say what happens to the breaks at the
end: they are kept, or all but one or all of them are dropped.  Without a
fixed indentation the deepest line of blanks at the start or the first line
with content sets it.  A folded scalar joins lines like a flow scalar, but not
next to lines that start with a blank.

`fuel` is a bound on the characters that are left; each round takes one at
least.
-/
import StepGraph.Yaml.Cursor

namespace StepGraph.Yaml.BlockScalar

open StepGraph.Text (isDigit digitValue)

/-- What happens to the line breaks at the end of the scalar. -/
inductive Chomping where
  | strip
  | clip
  | keep
deriving DecidableEq

/-- What a block scalar's header says. -/
structure Header where
  chomping : Chomping := .clip
  /-- The indentation against the surrounding block, if it is fixed. -/
  increment : Option Nat := none

/-- The chomping that an indicator stands for. -/
def chomping? (c : Char) : Option Chomping :=
  if c = '+' then some .keep else if c = '-' then some .strip else none

/-- A fixed indentation: one digit that is not zero, if there is a digit. -/
def readIncrement (pos : Cursor) : Option (Option Nat × Cursor) :=
  match pos.rest with
  | c :: _ =>
      if c = '0' then none
      else if isDigit c then some (some (digitValue c), pos.advance 1)
      else some (none, pos)
  | [] => some (none, pos)

def readChomping (pos : Cursor) : Option Chomping × Cursor :=
  match pos.rest.head?.bind chomping? with
  | some chomping => (some chomping, pos.advance 1)
  | none => (none, pos)

/-- The header, with its two indicators in either order. -/
def readHeader (pos : Cursor) : Option (Header × Cursor) :=
  match readChomping pos with
  | (some chomping, pos) => do
      let (increment, pos) ← readIncrement pos
      return (⟨chomping, increment⟩, pos)
  | (none, pos) => do
      let (increment, pos) ← readIncrement pos
      if increment.isSome then
        let (chomping, pos) := readChomping pos
        return (⟨chomping.getD .clip, increment⟩, pos)
      else return ({}, pos)

/-- Moves over indentation and empty lines and gives the breaks of the latter and the
deepest column.  Before `indent`, or before any content while it is not known, a tab
is refused. -/
def readBreaks (indent : Option Nat) :
    Nat → Nat → List Char → Cursor → Option (List Char × Nat × Cursor)
  | 0, _, _, _ => none
  | fuel + 1, deepest, breaks, pos =>
      let inside (column : Nat) : Bool := match indent with
        | some n => column < n
        | none => true
      match pos.rest with
      | c :: _ =>
          if c = ' ' && inside pos.column then
            readBreaks indent fuel (max deepest (pos.column + 1)) breaks (pos.advance 1)
          else if c = '\t' && inside pos.column then none
          else if isBreak c then
            let (taken, next) := pos.takeBreak
            readBreaks indent fuel (max deepest pos.column) (breaks ++ taken) next
          else some (breaks, max deepest pos.column, pos)
      | [] => some (breaks, max deepest pos.column, pos)

def startsBlank : List Char → Bool
  | c :: _ => isBlank c
  | [] => false

/-- The content from the start of a line on.  `leading` is the break of the line before,
`breaks` are those of the empty lines behind it, and `wasBlank` says whether the line
before started with a blank. -/
def readLines (literal : Bool) (chomping : Chomping) (indent : Nat) :
    Nat → List Char → List Char → Bool → Cursor → Option (List Char × Cursor)
  | 0, _, _, _, _ => none
  | fuel + 1, leading, breaks, wasBlank, pos =>
      if pos.column = indent && !pos.rest.isEmpty then do
        let isBlankLine := startsBlank pos.rest
        let folds := !literal && leading.head? = some '\n' && !wasBlank && !isBlankLine
        let joint := if folds then (if breaks.isEmpty then [' '] else []) else leading
        let line := pos.rest.takeWhile fun c => !isBreak c
        let (next, pos) := (pos.advance line.length).takeBreak
        let (breaks', _, pos) ← readBreaks (some indent) fuel 0 [] pos
        let (more, pos) ← readLines literal chomping indent fuel next breaks' isBlankLine pos
        return (joint ++ breaks ++ line ++ more, pos)
      else
        match chomping with
        | .strip => some ([], pos)
        | .clip => some (leading, pos)
        | .keep => some (leading ++ breaks, pos)

/-- A block scalar, from its indicator, inside a block at column `outer` (`-1` outside of
any). -/
def read (literal : Bool) (outer : Int) (pos : Cursor) : Option (List Char × Cursor) := do
  let (header, pos) ← readHeader (pos.advance 1)
  let pos ← pos.finishLine?
  let fixed := header.increment.map fun n => if 0 ≤ outer then outer.toNat + n else n
  let (breaks, deepest, pos) ← readBreaks fixed (pos.rest.length + 1) 0 [] pos
  let indent := fixed.getD (max deepest (max (outer + 1).toNat 1))
  readLines literal header.chomping indent (pos.rest.length + 1) [] breaks false pos

end StepGraph.Yaml.BlockScalar
