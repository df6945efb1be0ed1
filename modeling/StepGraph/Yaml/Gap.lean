/-
Gaps in flow scalars.

Inside a quoted or plain scalar, blanks between characters of one line stand
for themselves.  A gap with line breaks is folded: blanks around the breaks
vanish, one break becomes a space, and of more breaks the first vanishes.
-/
import StepGraph.Yaml.Cursor

namespace StepGraph.Yaml

/-- A run of blanks and line breaks. -/
structure Gap where
  /-- Blanks before the first break. -/
  blanks : List Char := []
  /-- Whether the line was broken. -/
  broken : Bool := false
  /-- The first break, empty when an escape stands for it. -/
  first : List Char := []
  /-- The further breaks. -/
  more : List Char := []

namespace Gap

def text (gap : Gap) : List Char :=
  if gap.broken then
    match gap.first with
    | '\n' :: _ => if gap.more.isEmpty then [' '] else gap.more
    | first => first ++ gap.more
  else gap.blanks

/-- Reads the rest of a gap of at most `fuel` characters.  Behind a break, a tab to the
left of column `floor` is refused. -/
def read (floor : Int) : Nat → Gap → Cursor → Option (Gap × Cursor)
  | 0, gap, pos => some (gap, pos)
  | fuel + 1, gap, pos =>
      match pos.rest with
      | [] => some (gap, pos)
      | c :: _ =>
          if isBlank c then
            if gap.broken && c = '\t' && (pos.column : Int) < floor then none
            else if gap.broken then read floor fuel gap (pos.advance 1)
            else read floor fuel { gap with blanks := gap.blanks ++ [c] } (pos.advance 1)
          else if isBreak c then
            let (taken, next) := pos.takeBreak
            if gap.broken then read floor fuel { gap with more := gap.more ++ taken } next
            else read floor fuel { gap with blanks := [], broken := true, first := taken } next
          else some (gap, pos)

end Gap

end StepGraph.Yaml
