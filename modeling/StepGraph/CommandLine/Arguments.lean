/-
Options and operands on a command line.

An option is written by its long name behind two dashes or by its letter
behind one; letters without values may be written together.  A value stands
behind `=`, right behind the letter, or in the next argument, where it must
not look like an option itself.  Behind `--` everything is an operand.

Arguments are read from left to right, and the first mistake ends the
reading, so what stands in front of it still counts.
-/
namespace StepGraph.CommandLine

/-- An option. -/
inductive Flag where
  | mergeType
  | mergeSuffix
  | verbose
  | help
  | version
  | format
  | type
  | json
deriving DecidableEq

namespace Flag

def long : Flag → String
  | .mergeType => "merge-type"
  | .mergeSuffix => "merge-suffix"
  | .verbose => "verbose"
  | .help => "help"
  | .version => "version"
  | .format => "format"
  | .type => "type"
  | .json => "json"

def letter? : Flag → Option Char
  | .verbose => some 'v'
  | .help => some 'h'
  | .version => some 'V'
  | .format => some 'f'
  | .type => some 't'
  | _ => none

/-- The name of an option's value, for those that have one. -/
def valueName? : Flag → Option String
  | .mergeType => some "MERGE_TYPE"
  | .mergeSuffix => some "MERGE_SUFFIX"
  | .format => some "FORMAT"
  | .type => some "STEP_TYPES"
  | _ => none

def takesValue (flag : Flag) : Bool := flag.valueName?.isSome

end Flag

/-- A part of a command line. -/
inductive Item where
  /-- An option and its value, which is empty for an option without. -/
  | option (flag : Flag) (value : String)
  /-- An operand and the arguments behind it. -/
  | operand (text : String) (behind : List String)
  /-- An operand behind `--`. -/
  | verbatim (text : String)
  /-- Something that is none of these. -/
  | mistake

namespace Item

/-- The option that a long name writes, with the value behind `=` if there is one. -/
def ofLong (known : List Flag) (text : List Char) : List Item × Option Flag :=
  let name := text.takeWhile (· ≠ '=')
  match known.find? fun flag => flag.long = String.ofList name, text.drop name.length with
  | some flag, [] => if flag.takesValue then ([], some flag) else ([.option flag ""], none)
  | some flag, _ :: value =>
      if flag.takesValue then ([.option flag (String.ofList value)], none) else ([.mistake], none)
  | none, _ => ([.mistake], none)

def ofLetters (known : List Flag) : List Char → List Item × Option Flag
  | [] => ([], none)
  | c :: rest =>
      match known.find? fun flag => flag.letter? = some c with
      | none => ([.mistake], none)
      | some flag =>
          if flag.takesValue then
            match rest with
            | [] => ([], some flag)
            | '=' :: value => ([.option flag (String.ofList value)], none)
            | value => ([.option flag (String.ofList value)], none)
          else
            let (items, waiting) := ofLetters known rest
            (.option flag "" :: items, waiting)

def looksLikeOption (argument : String) : Bool :=
  match argument.toList with
  | '-' :: _ :: _ => true
  | _ => false

/-- The parts that an argument writes, and the option that the next one must give a value
to. -/
def ofArgument (known : List Flag) (argument : String) (behind : List String) :
    List Item × Option Flag :=
  match argument.toList with
  | '-' :: '-' :: name => ofLong known name
  | '-' :: c :: letters => ofLetters known (c :: letters)
  | _ => ([.operand argument behind], none)

/-- The parts of a command line, where `waiting` is an option that still lacks its value. -/
def ofArguments (known : List Flag) : Option Flag → List String → List Item
  | none, [] => []
  | some _, [] => [.mistake]
  | some flag, argument :: rest =>
      if looksLikeOption argument then [.mistake]
      else .option flag argument :: ofArguments known none rest
  | none, argument :: rest =>
      if argument = "--" then rest.map .verbatim
      else
        let (items, waiting) := ofArgument known argument rest
        items ++ ofArguments known waiting rest

end Item

end StepGraph.CommandLine
