/-
Plain scalars.

A plain scalar ends before a colon with a gap behind it, before a comment,
before a marker between documents, inside a flow collection before one of
its indicators, and outside of one where a line is indented too little.

`fuel` is a bound on the characters that are left; each round takes one at
least.
-/
import StepGraph.Yaml.Gap

namespace StepGraph.Yaml.PlainScalar

/-- The characters up to a gap or an end of the scalar.  Inside a flow collection a colon
right before an indicator is refused. -/
def readRun (flow : Bool) : List Char → Option (List Char)
  | [] => some []
  | c :: rest =>
      if isBlank c || isBreak c then some []
      else if flow && c = ':' && (match rest with
          | d :: _ => isFlowIndicator d || d = '?'
          | [] => false) then none
      else if (c = ':' && atGapOrEnd rest) || (flow && isFlowIndicator c) then some []
      else (readRun flow rest).map (c :: ·)

/-- The scalar from a place behind the gap `gap`.  The Boolean says whether the last
thing read was a line break. -/
def readLines (flow : Bool) (indent : Int) :
    Nat → Gap → Cursor → Option (List Char × Bool × Cursor)
  | 0, _, _ => none
  | fuel + 1, gap, pos =>
      if pos.column = 0 && atDocumentMarker pos.rest then some ([], gap.broken, pos)
      else if pos.rest.head? = some '#' then some ([], gap.broken, pos)
      else do
        let run ← readRun flow pos.rest
        if run.isEmpty then return ([], gap.broken, pos)
        else
          let pos := pos.advance run.length
          let text := gap.text ++ run
          match pos.rest with
          | [] => return (text, false, pos)
          | c :: _ =>
              if isBlank c || isBreak c then
                let (gap, pos) ← Gap.read indent fuel {} pos
                if !flow && (pos.column : Int) < indent then return (text, gap.broken, pos)
                else
                  let (more, broken, pos) ← readLines flow indent fuel gap pos
                  return (text ++ more, broken, pos)
              else return (text, false, pos)

/-- A plain scalar.  Its further lines have to be indented by `indent` at least. -/
def read (flow : Bool) (indent : Int) (pos : Cursor) : Option (List Char × Bool × Cursor) :=
  readLines flow indent (pos.rest.length + 1) {} pos

end StepGraph.Yaml.PlainScalar
