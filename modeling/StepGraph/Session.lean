/-
Working on a document step by step.

A session has a current document and settings.  An operation reads a
document, changes settings, compiles or expands the current document, or asks
about it; one that fails leaves the session as it was.
-/
import StepGraph.Source
import StepGraph.Template.Query

namespace StepGraph

open StepGraph.Plan (Compiler)

/-- The state of a session. -/
structure Session where
  document : Document := .null
  compiler : Compiler := {}
  settings : Template.Settings := {}

namespace Session

/-- An operation on a session. -/
inductive Operation where
  | read (format : Source.Format) (text : String)
  | setCompiler (compiler : Compiler)
  | setIndex (settings : Template.Settings)
  /-- Compiles the current document into states. -/
  | states
  /-- Compiles the current document into a graph. -/
  | definition
  | expand
  | ask (query : Template.Query)

/-- What an operation answers. -/
inductive Reply where
  | document (document : Document)
  | mergeType (type : String)
  | done
  | answer (answer : Template.Answer)

/-- Why an operation failed. -/
inductive Fault where
  | source (fault : Source.Fault)
  | expansion (fault : Template.ExpansionFault)

/-- Makes a document the current one. -/
def setDocument (s : Session) (document : Document) : Reply × Session :=
  (.document document, { s with document })

/-- The result of an operation and the session behind it. -/
def attempt (s : Session) : Operation → Except Fault (Reply × Session)
  | .read format text => ((Source.parse format text).map s.setDocument).mapError .source
  | .setCompiler compiler => .ok (.mergeType compiler.mergeType, { s with compiler })
  | .setIndex settings => .ok (.done, { s with settings })
  | .states =>
      ((s.compiler.states s.document).map s.setDocument).mapError fun fault =>
        .expansion (.plan fault)
  | .definition =>
      ((s.compiler.definition s.document).map s.setDocument).mapError fun fault =>
        .expansion (.plan fault)
  | .expand =>
      ((Template.expand s.settings s.compiler s.document).map s.setDocument).mapError .expansion
  | .ask query => Except.mapError .expansion do
      let index ← (Template.Index.build s.settings s.document).mapError .template
      return (.answer (← index.answer query), s)

/-- Runs an operation. -/
def run (s : Session) (operation : Operation) : Except Fault Reply × Session :=
  match s.attempt operation with
  | .ok (reply, next) => (.ok reply, next)
  | .error fault => (.error fault, s)

/-- Runs operations one after the other. -/
def runAll (s : Session) : List Operation → List (Except Fault Reply)
  | [] => []
  | operation :: rest =>
      let (reply, next) := s.run operation
      reply :: runAll next rest

end Session

end StepGraph
