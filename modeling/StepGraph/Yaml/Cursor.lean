/-
A place in YAML text.

The lexer has to know more of a place than what is left of the text: its
column decides nesting, and its line and its distance from the start decide
whether a scalar may still be the key of a mapping.  Columns count characters;
the distance counts bytes of the text in UTF-8.
-/
import StepGraph.Yaml.Character

namespace StepGraph.Yaml

/-- What is left of a text, and where that starts. -/
structure Cursor where
  rest : List Char
  /-- The number of bytes in front of it. -/
  offset : Nat := 0
  line : Nat := 0
  column : Nat := 0

def byteCount (cs : List Char) : Nat := cs.foldr (fun c count => c.utf8Size + count) 0

namespace Cursor

def offsetBehind (pos : Cursor) (count : Nat) : Nat :=
  pos.offset + byteCount (pos.rest.take count)

/-- Moves over characters that are no line breaks. -/
def advance (pos : Cursor) (count : Nat) : Cursor :=
  { pos with
    rest := pos.rest.drop count, offset := pos.offsetBehind count, column := pos.column + count }

/-- Moves over the characters of a class that holds no line break. -/
def skipWhile (pos : Cursor) (p : Char → Bool) : Cursor :=
  pos.advance (pos.rest.takeWhile p).length

/-- The start of the next line, when the characters up to there have been counted. -/
def nextLine (pos : Cursor) (count : Nat) : Cursor :=
  { rest := pos.rest.drop count, offset := pos.offsetBehind count
    line := pos.line + 1, column := 0 }

/-- Moves over one line break and gives what it means: a line feed, except that the
line and paragraph separators stand for themselves.  At another place nothing is
moved over. -/
def takeBreak (pos : Cursor) : List Char × Cursor :=
  match pos.rest with
  | '\x0d' :: '\n' :: _ => (['\n'], pos.nextLine 2)
  | c :: _ =>
      if c = '\u2028' || c = '\u2029' then ([c], pos.nextLine 1)
      else if isBreak c then (['\n'], pos.nextLine 1)
      else ([], pos)
  | [] => ([], pos)

/-- Moves over blanks, a comment behind them, and the end of the line; none when the line
holds anything else. -/
def finishLine? (pos : Cursor) : Option Cursor :=
  let pos := pos.skipWhile isBlank
  let pos := match pos.rest with
    | '#' :: _ => pos.skipWhile fun c => !isBreak c
    | _ => pos
  if atBreakOrEnd pos.rest then some pos.takeBreak.2 else none

end Cursor

end StepGraph.Yaml
