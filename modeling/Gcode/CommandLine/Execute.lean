import Gcode.CommandLine.Request
import Gcode.CommandLine.Run

/-!
# Carrying out a command line

The sources are handled from left to right, each in the workspace that the one before it left
behind, and the status is the greatest of theirs. A source that is not handled ends the run.

## Main definitions

* `Request.perform` — a request carried out.
* `execute` — a command line carried out.
-/

namespace Gcode.CommandLine

namespace Request

/-- What is to be done with a source. -/
def job (request : Request) (source : Text) : Job where
  source := source
  isText := request.isText
  target := request.target.getD "ngc"
  out := request.out
  inPlace := request.inPlace
  check := request.check
  strict := request.strict
  options :=
    { indentWidth := request.indent.getD 2
      limits := ⟨request.maxIterations.getD none, request.maxDepth.getD 64⟩
      target := request.target.getD "ngc" }
  blanks :=
    ⟨request.target.isBlank, request.maxIterations.isBlank, request.maxDepth.isBlank⟩
  verbose := request.verbose

/-- Sources handled in order, with the greatest status of theirs and the given one. -/
def performAll (request : Request) (status : Nat) (w : Workspace) :
    List Text → Except RunError Nat × Workspace
  | [] => (.ok status, w)
  | source :: sources =>
    match (request.job source).run w with
    | (.error e, w) => (.error e, w)
    | (.ok n, w) => performAll request (max status n) w sources

/-- A request carried out. -/
def perform (request : Request) (w : Workspace) : Except RunError Nat × Workspace :=
  performAll request Job.statusOk w request.sources

end Request

/-- The status of a command line that is refused. -/
def statusUsage : Nat := 2

/-- A command line carried out. A refusal is printed as an error. -/
def execute (arguments : List Text) (w : Workspace) : Except RunError Nat × Workspace :=
  match Request.ofArguments arguments with
  | .error .help => (.ok Job.statusOk, w)
  | .error .blankIndent => (.error .blankIndent, w)
  | .error (.usage e) => (.ok statusUsage, w.printError ("ngcfmt: error: " ++ e.message))
  | .ok request => request.perform w

end Gcode.CommandLine
