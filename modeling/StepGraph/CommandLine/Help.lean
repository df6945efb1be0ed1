/-
Help on the commands.
-/
import StepGraph.CommandLine.Invocation

namespace StepGraph.CommandLine

def programName : String := "attini-plan"

def versionText : String := programName ++ " 0.3.2\n"

def Topic.about : Topic → String
  | .compile =>
      "Compile a simplified plan, or the simplified plan inside a template, " ++
        "and print the state machine definition"
  | .expand => "Print a template with its deployment plan compiled"
  | .plan => "Show the deployment plan resource and how it is written"
  | .runners => "List the runner resources in a template"
  | .steps => "List the deployment plan steps of the given types"
  | .help => "Print this message or the help of the given subcommand(s)"

def Flag.about : Flag → String
  | .mergeType => "Step type recognized as, and used for, merge steps after a fan-out"
  | .mergeSuffix => "Suffix used to name inserted merge steps"
  | .verbose =>
      "Increase log output (-v for info, -vv for debug). RUST_LOG takes precedence"
  | .help => "Print help"
  | .version => "Print version"
  | .format => "Output format [default: yaml] [possible values: json, yaml]"
  | .type => "Step type to look for; may be repeated"
  | .json => "Print the matching steps and their definitions as JSON"

def Flag.usage (flag : Flag) : String :=
  let letter := match flag.letter? with
    | some c => "-" ++ c.toString ++ ", "
    | none => "    "
  let value := match flag.valueName? with
    | some name => " <" ++ name ++ ">"
    | none => if flag = .verbose then "..." else ""
  letter ++ "--" ++ flag.long ++ value

/-- Texts with what they stand for, one to a line.  The second column starts two characters
behind the longest text. -/
def twoColumns (entries : List (String × String)) : String :=
  let width := (entries.map fun entry => entry.1.length).foldl max 0 + 2
  String.join <| entries.map fun entry =>
    "  " ++ entry.1 ++ String.ofList (List.replicate (width - entry.1.length) ' ') ++
      entry.2 ++ "\n"

def Topic.operandAbout : Topic → String
  | .compile => "Path to a plan (JSON or YAML list of steps) or a template"
  | _ => "Path to the template"

def optionList (flags : List Flag) : String :=
  "Options:\n" ++ twoColumns (flags.map fun flag => (flag.usage, flag.about))

def overview : String :=
  "Compiler and template index for Attini deployment plans written in simplified syntax\n\n" ++
    "Usage: " ++ programName ++ " [OPTIONS] <COMMAND>\n\n" ++
    "Commands:\n" ++ twoColumns (Topic.all.map fun topic => (topic.text, topic.about)) ++ "\n" ++
    optionList (sharedFlags ++ [.version])

/-- The options that must be given to a command. -/
def Topic.requiredUsage : Topic → String
  | .steps => " --type <STEP_TYPES>"
  | _ => ""

def Topic.page : Topic → String
  | .help =>
      Topic.help.about ++ "\n\nUsage: " ++ programName ++ " help [COMMAND]...\n\n" ++
        "Arguments:\n" ++ twoColumns [("[COMMAND]...", "Print help for the subcommand(s)")]
  | topic =>
      topic.about ++ "\n\nUsage: " ++ programName ++ " " ++ topic.text ++ " [OPTIONS]" ++
        topic.requiredUsage ++ " <PATH>\n\n" ++
        "Arguments:\n" ++ twoColumns [("<PATH>", topic.operandAbout)] ++ "\n" ++
        optionList (topic.ownFlags ++ sharedFlags)

def helpText : Option Topic → String
  | none => overview
  | some topic => topic.page

end StepGraph.CommandLine
