/-
The program.
-/
import StepGraph.CommandLine.Outcome

namespace StepGraph.CommandLine

/-- The bytes in a file, if it can be read. -/
def readFile? (path : String) : IO (Option ByteArray) := do
  try
    return some (← IO.FS.readBinFile path)
  catch _ => return none

/-- A line of the log, without the time. -/
def logLine (warning : Plan.Renaming) : String :=
  " WARN " ++ Plan.Renaming.message ++ " base=" ++ Yaml.describeText warning.base ++
    " name=" ++ warning.name ++ "\n"

/-- Runs a command line and gives the exit code. -/
def execute (arguments : List String) : IO UInt32 := do
  let invocation := Invocation.ofArguments arguments
  let contents ← match invocation with
    | .perform _ command => readFile? command.path
    | _ => pure none
  let outcome := invocation.run fun _ => contents
  IO.print outcome.output
  IO.eprint (outcome.errorStream fun warnings => String.join (warnings.map logLine))
  return UInt32.ofNat outcome.exitCode

end StepGraph.CommandLine

/-- Runs the command line. -/
def main (arguments : List String) : IO UInt32 :=
  StepGraph.CommandLine.execute arguments
