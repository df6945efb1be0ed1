/-
What a command line asks for.

In front of the command's name stand options for all commands; behind it they
may stand too, and then count.  An option that is not repeatable must not
occur twice on the same side.  A request for help or for the version is
answered as soon as it is read.
-/
import StepGraph.CommandLine.Arguments
import StepGraph.Source
import StepGraph.Plan.Compiler

namespace StepGraph.CommandLine

/-- The name of a command. -/
inductive Topic where
  | compile
  | expand
  | plan
  | runners
  | steps
  | help
deriving DecidableEq

def Topic.text : Topic → String
  | .compile => "compile"
  | .expand => "expand"
  | .plan => "plan"
  | .runners => "runners"
  | .steps => "steps"
  | .help => "help"

def Topic.all : List Topic := [.compile, .expand, .plan, .runners, .steps, .help]

def Topic.ofText? (text : String) : Option Topic :=
  all.find? fun topic => topic.text = text

/-- Options that are understood in front of a command's name and behind it. -/
def sharedFlags : List Flag := [.mergeType, .mergeSuffix, .verbose, .help]

/-- The options that a command has on its own. -/
def Topic.ownFlags : Topic → List Flag
  | .expand => [.format]
  | .steps => [.type, .json]
  | _ => []

/-- A command with all it needs. -/
inductive Command where
  | compile (path : String)
  | expand (path : String) (format : Source.Format)
  | plan (path : String)
  | runners (path : String)
  | steps (path : String) (types : List String) (json : Bool)

def Command.path : Command → String
  | .compile path => path
  | .expand path _ => path
  | .plan path => path
  | .runners path => path
  | .steps path _ _ => path

/-- What a command line asks for. -/
inductive Invocation where
  | version
  /-- Help on a command, or on all. -/
  | help (topic : Option Topic)
  | perform (compiler : Plan.Compiler) (command : Command)
  /-- Nothing that is understood. -/
  | misuse

/-- What the options and operands read so far say. -/
structure Settings where
  mergeType : Option String := none
  mergeSuffix : Option String := none
  format : Option Source.Format := none
  types : List String := []
  json : Bool := false
  path : Option String := none

namespace Settings

def format? (text : String) : Option Source.Format :=
  if text = "json" then some .json else if text = "yaml" then some .yaml else none

/-- Takes an option in; none if it must not occur again or has no such value. -/
def withOption (s : Settings) (flag : Flag) (value : String) : Option Settings :=
  match flag with
  | .mergeType => if s.mergeType.isSome then none else some { s with mergeType := value }
  | .mergeSuffix => if s.mergeSuffix.isSome then none else some { s with mergeSuffix := value }
  | .format =>
      if s.format.isSome then none
      else (format? value).map fun format => { s with format := some format }
  | .type => some { s with types := s.types ++ [value] }
  | .json => if s.json then none else some { s with json := true }
  | _ => some s

def withOperand (s : Settings) (text : String) : Option Settings :=
  if s.path.isSome then none else some { s with path := some text }

/-- The compiler that the options in front of and behind the command's name set up. -/
def compiler (front behind : Settings) : Plan.Compiler :=
  let default : Plan.Compiler := {}
  { mergeType := (behind.mergeType <|> front.mergeType).getD default.mergeType
    mergeSuffix := (behind.mergeSuffix <|> front.mergeSuffix).getD default.mergeSuffix }

/-- The command of a name, if it has all it needs. -/
def command? (s : Settings) (topic : Topic) : Option Command :=
  match topic, s.path with
  | .compile, some path => some (.compile path)
  | .expand, some path => some (.expand path (s.format.getD .yaml))
  | .plan, some path => some (.plan path)
  | .runners, some path => some (.runners path)
  | .steps, some path => if s.types.isEmpty then none else some (.steps path s.types s.json)
  | _, _ => none

end Settings

namespace Invocation

def proceed (settings : Option Settings) (next : Settings → Invocation) : Invocation :=
  match settings with
  | some settings => next settings
  | none => .misuse

/-- Reads what stands behind a command's name. -/
def ofCommandItems (topic : Topic) (front : Settings) : Settings → List Item → Invocation
  | behind, [] =>
      match behind.command? topic with
      | some command => .perform (Settings.compiler front behind) command
      | none => .misuse
  | _, .option .help _ :: _ => .help (some topic)
  | behind, .option flag value :: rest =>
      proceed (behind.withOption flag value) fun behind => ofCommandItems topic front behind rest
  | behind, .operand text _ :: rest | behind, .verbatim text :: rest =>
      proceed (behind.withOperand text) fun behind => ofCommandItems topic front behind rest
  | _, .mistake :: _ => .misuse

/-- What a request for help by its own command asks for. -/
def ofHelp : List String → Invocation
  | [] => .help none
  | [name] =>
      match Topic.ofText? name with
      | some topic => .help (some topic)
      | none => .misuse
  | _ => .misuse

/-- Reads a command's name and what stands behind it. -/
def ofCommand (front : Settings) (name : String) (behind : List String) : Invocation :=
  match Topic.ofText? name with
  | some .help => ofHelp behind
  | some topic =>
      ofCommandItems topic front {} (Item.ofArguments (topic.ownFlags ++ sharedFlags) none behind)
  | none => .misuse

def ofItems : Settings → List Item → Invocation
  | _, [] => .misuse
  | _, .option .help _ :: _ => .help none
  | _, .option .version _ :: _ => .version
  | front, .option flag value :: rest =>
      proceed (front.withOption flag value) fun front => ofItems front rest
  | front, .operand name behind :: _ => ofCommand front name behind
  | _, .verbatim _ :: _ => .misuse
  | _, .mistake :: _ => .misuse

def ofArguments (arguments : List String) : Invocation :=
  ofItems {} (Item.ofArguments (sharedFlags ++ [.version]) none arguments)

end Invocation

end StepGraph.CommandLine
