/-
Running commands.

A command reads a document from one file, works on it, and prints a result;
or it fails and says why on the error stream.  What a command finds out and
how that is printed are kept apart.

Warnings go to a log, which writes its lines to the error stream in a form of
its own, with the time in them.  So warnings are kept as they are given to the
log, apart from what the program says itself.  The log has no other lines unless
it is asked for them, and those are left out.
-/
import StepGraph.CommandLine.Help
import StepGraph.Json.Writer
import StepGraph.Template.Expansion
import StepGraph.Template.Steps
import StepGraph.Yaml.Writer

namespace StepGraph.CommandLine

open StepGraph.Plan (Compiler Recorded Renaming renamings)

/-- Why a command failed. -/
inductive Fault where
  | source (fault : Source.Fault)
  | template (fault : Template.Fault)
  /-- The plan given to be compiled does not compile. -/
  | compilation (fault : Plan.Fault)
  /-- The template could not be expanded. -/
  | expansion (fault : Template.ExpansionFault)

def Fault.message : Fault → String
  | .source fault => fault.message
  | .template fault => fault.message
  | .compilation fault => "Compilation failed: " ++ fault.message
  | .expansion fault => "Expansion failed: " ++ fault.message

/-- What a command found out. -/
inductive Finding where
  /-- A graph, and the name of its plan if it was one already. -/
  | definition (graph : Document) (compiledPlan : Option String)
  | template (expanded : Document) (format : Source.Format)
  | plan (found : Option Template.DeploymentPlan)
  | runners (names : List String)
  | steps (groups : Template.StepGroups) (wanted : List String) (json : Bool)

def indexOf (document : Document) : Except Fault Template.Index :=
  (Template.Index.build {} document).mapError .template

def compilePlan (c : Compiler) (plan : Document) : Recorded Fault Document :=
  (c.recordDefinition plan).mapError .compilation

/-- The graph of a document that is a plan or a template with one, and the name of the plan
if it was a graph already. -/
def definitionOf (c : Compiler) (document : Document) :
    Recorded Fault (Document × Option String) :=
  match document.items? with
  | some _ => do return (← compilePlan c document, none)
  | none => do
      let index ← .silent (indexOf document)
      let plan ← .silent (index.plan.mapError .template)
      match plan.format with
      | .simple => return (← compilePlan c plan.payload, none)
      | .stateLanguage => return (plan.payload, some plan.name)

/-- A document as a template with its plan compiled. -/
def expansionOf (c : Compiler) (document : Document) : Recorded Fault Document := do
  let index ← .silent (indexOf document)
  (index.recordExpand c).mapError .expansion

/-- The steps of types in a document as a template, compiled or not. -/
def stepsOf (c : Compiler) (document : Document) (types : List String) :
    Recorded Fault Template.StepGroups := do
  let index ← .silent (indexOf (← expansionOf c document))
  .silent ((index.steps types).mapError .template)

/-- What a command finds out about a document. -/
def Command.examine (command : Command) (c : Compiler) (document : Document) :
    Recorded Fault Finding :=
  match command with
  | .compile _ => do
      let (graph, compiledPlan) ← definitionOf c document
      return .definition graph compiledPlan
  | .expand _ format => do return .template (← expansionOf c document) format
  | .plan _ => .silent do return .plan (← ((← indexOf document).plan?).mapError .template)
  | .runners _ => .silent do return .runners (← indexOf document).runners
  | .steps _ types json => do return .steps (← stepsOf c document types) types json

/-! ### Printing -/

def render (format : Source.Format) (document : Document) : String :=
  match format with
  | .json => Json.pretty document
  | .yaml => Yaml.render document

/-- The items of a list without those that occurred before. -/
def distinct (items : List String) : List String :=
  items.foldl (fun seen item => if seen.contains item then seen else seen ++ [item]) []

/-- The steps of a type, one a line below their number. -/
def listSteps (groups : Template.StepGroups) (type : String) : String :=
  let found := groups.get type
  type ++ " (" ++ toString found.length ++ ")\n" ++
    String.join (found.map fun step => "  - " ++ step.name ++ "\n")

def Finding.output : Finding → String
  | .definition graph _ => render .json graph ++ "\n"
  | .template expanded format => render format expanded ++ "\n"
  | .plan none => "No deployment plan found\n"
  | .plan (some found) => found.name ++ " (" ++ found.format.text ++ ")\n"
  | .runners [] => "No runners found\n"
  | .runners names => String.join (names.map fun name => name ++ "\n")
  | .steps groups _ true => render .json groups.toDocument ++ "\n"
  | .steps groups wanted false => String.join ((distinct wanted).map (listSteps groups))

/-- What the program says about a finding on the error stream. -/
def Finding.notice : Finding → String
  | .definition _ (some name) => "Deployment plan '" ++ name ++ "' is already compiled.\n"
  | _ => ""

/-- How a run of the program ends. -/
structure Outcome where
  exitCode : Nat := 0
  output : String := ""
  /-- What the log is given to warn of, in order. -/
  warnings : List Renaming := []
  /-- What the program says itself on the error stream. -/
  errors : String := ""

/-- The error stream, given the lines of the log: nothing is said before the last warning. -/
def Outcome.errorStream (log : List Renaming → String) (outcome : Outcome) : String :=
  log outcome.warnings ++ outcome.errors

def Outcome.failure (warnings : List Renaming) (fault : Fault) : Outcome :=
  { exitCode := 1, warnings, errors := "\nError: " ++ fault.message ++ "\n" }

def Outcome.success (warnings : List Renaming) (finding : Finding) : Outcome :=
  { output := finding.output, warnings, errors := finding.notice }

/-- How a run ends that finds something out or fails. -/
def Outcome.of (run : Recorded Fault Finding) : Outcome :=
  match run.result with
  | .ok finding => .success (renamings run.uses) finding
  | .error fault => .failure (renamings run.uses) fault

/-- The outcome of a command line that is not understood. -/
def Outcome.misuse : Outcome :=
  { exitCode := 2, errors := "error: invalid arguments\n\nFor more information, try '--help'.\n" }

/-- Runs a command, given the bytes in its file if it is there. -/
def Command.run (command : Command) (c : Compiler) (contents : Option ByteArray) : Outcome :=
  .of do
    let document ← .silent ((Source.load command.path contents).mapError .source)
    command.examine c document

/-- Does what a command line asks for, given the bytes in each file. -/
def Invocation.run (invocation : Invocation) (files : String → Option ByteArray) : Outcome :=
  match invocation with
  | .version => { output := versionText }
  | .help topic => { output := helpText topic }
  | .perform compiler command => command.run compiler (files command.path)
  | .misuse => .misuse

end StepGraph.CommandLine
