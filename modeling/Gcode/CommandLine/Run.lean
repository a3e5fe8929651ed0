import Gcode.CommandLine.Directory
import Gcode.Format
import Gcode.Node.Nesting
import Gcode.Text.Utf8

/-!
# Running the formatter on a source

A source is the name of a program file or a program text. It is read and formatted, its
diagnostics are printed as errors, and the result is printed or written into a file, or, for a
check, only compared with the source.

## Main definitions

* `Workspace` — the files that a run sees, and what it printed.
* `Job` — what is to be done with a source.
* `Job.run` — the run, with its status.
-/

namespace Gcode

/-- The files that a run sees, and what it printed so far. -/
structure Workspace where
  directory : Directory
  output : Text
  errors : Text

namespace Workspace

/-- The workspace in which nothing has been printed. -/
def ofDirectory (directory : Directory) : Workspace := ⟨directory, [], []⟩

/-- The workspace with more output. -/
def print (w : Workspace) (t : Text) : Workspace := { w with output := w.output ++ t }

/-- The workspace with one more line printed as an error. -/
def printError (w : Workspace) (t : Text) : Workspace := { w with errors := w.errors ++ t ++ "\n" }

/-- The workspace with more lines printed as errors. -/
def printErrors (w : Workspace) (lines : List Text) : Workspace := lines.foldl printError w

@[simp] theorem directory_print (w : Workspace) (t : Text) :
    (w.print t).directory = w.directory := rfl

@[simp] theorem directory_printError (w : Workspace) (t : Text) :
    (w.printError t).directory = w.directory := rfl

@[simp] theorem directory_printErrors (w : Workspace) (lines : List Text) :
    (w.printErrors lines).directory = w.directory := by
  induction lines generalizing w with
  | nil => rfl
  | cons line lines ih => exact ih _

@[simp] theorem output_printErrors (w : Workspace) (lines : List Text) :
    (w.printErrors lines).output = w.output := by
  induction lines generalizing w with
  | nil => rfl
  | cons line lines ih => exact ih _

end Workspace

/-- Why a source is not handled. -/
inductive RunError
  /-- The suffix is not that of a program file. -/
  | unsupportedSuffix
  /-- A program text is no file that could be changed in place. -/
  | textInPlace
  /-- A file to read, or the folder of one to write, does not exist. -/
  | missingFile (path : Text)
  /-- The bytes of a file are no text. -/
  | undecodable
  /-- There is no such target. -/
  | target (refusal : Target.Unknown)
  /-- Formatting failed. -/
  | format (refusal : FormatError)
  /-- The target was left blank. -/
  | blankTarget
  /-- The indentation was left blank. -/
  | blankIndent
  /-- The limit on the rounds of a loop was left blank. -/
  | blankRounds
  /-- The limit on nesting was left blank, and a part of the program asks for it. -/
  | blankDepth (part : Nesting)

/-- The wording of the refusal. -/
def RunError.message : RunError → Text
  | .unsupportedSuffix =>
    "Only " ++ Text.joined ", " Path.programEndings ++ " files are supported."
  | .textInPlace => "--in-place needs a file, not a string."
  | .missingFile path => "[Errno 2] No such file or directory: " ++ Text.quoted path
  | .undecodable => "the file is not UTF-8"
  | .target refusal => refusal.message
  | .format refusal => refusal.message
  | .blankTarget => "'list' object has no attribute 'lower'"
  | .blankIndent => "'<' not supported between instances of 'list' and 'int'"
  | .blankRounds => "'list' object cannot be interpreted as an integer"
  | .blankDepth .bracket => "'>=' not supported between instances of 'int' and 'list'"
  | .blankDepth .value => "unsupported operand type(s) for -: 'list' and 'int'"

/-- The settings that were left blank. -/
structure Blanks where
  target : Bool := false
  rounds : Bool := false
  depth : Bool := false
deriving DecidableEq, Repr

/-- What is to be done with a source. -/
structure Job where
  /-- The name of a file, or a program text. -/
  source : Text
  isText : Bool := false
  /-- The name of the target; an empty one falls back to that of the options. -/
  target : Text := "ngc"
  /-- The file to write the result into; an empty name stands for none. -/
  out : Text := []
  inPlace : Bool := false
  check : Bool := false
  strict : Bool := false
  options : FormatOptions := {}
  /-- The settings among the target and the options that are blank. -/
  blanks : Blanks := {}
  /-- Whether each step is logged. -/
  verbose : Bool := false

namespace Job

/-- The status of a run in which nothing is to be complained of. -/
def statusOk : Nat := 0

/-- The status of a check that found a change. -/
def statusChange : Nat := 1

/-- The status of a strict run with diagnostics. -/
def statusDiagnostics : Nat := 2

/-- The name of the source in messages. -/
def name (job : Job) : Text := if job.isText then "<string>" else job.source

/-- A line of the log. -/
def logLine (stage text : Text) : Text := "DEBUG ngcflow." ++ stage ++ ": " ++ text

/-- The number of diagnostics in the log. -/
def counted (n : Nat) : Text := "(" ++ Text.ofNat n ++ " diagnostics)"

/-- The log of the lexer. -/
def lexerLog (r : ReadProgram) : Text :=
  logLine "ngc_lexer"
    ("tokenized " ++ Text.ofNat r.tokenCount ++ " tokens " ++ counted r.lexical.length)

/-- The log of the parser. -/
def parserLog (r : ReadProgram) : Text :=
  logLine "ngc_parser"
    ("parsed " ++ Text.ofNat r.program.statements.length ++ " top-level statements "
      ++ counted r.syntactic.length)

/-- The log of a formatting run as a whole. -/
def formatLog (source : Text) (formatter : Formatter) (result : Formatted) : Text :=
  logLine "ngc_format"
    ("formatted " ++ Text.ofNat source.length ++ " chars -> " ++ Text.ofNat result.text.length
      ++ " chars as " ++ formatter.target.name ++ " " ++ counted result.read.diagnostics.length)

/-- The workspace with one more line of the log, if the job is logged. -/
def log (job : Job) (line : Text) (w : Workspace) : Workspace :=
  if job.verbose then w.printError line else w

/-- The program text of a source. -/
def read (job : Job) (directory : Directory) : Except RunError Text :=
  if job.isText then .ok job.source
  else
    match (directory.resolve? (Path.ofText job.source)).bind directory.read? with
    | none => .error (.missingFile job.source)
    | some bytes =>
      match Text.ofUtf8? bytes with
      | none => .error .undecodable
      | some text => .ok text

/-- The program text of a source, the formatter for it, and the formatted text. -/
def format (job : Job) (directory : Directory) :
    Except RunError (Text × Formatter × Formatted) :=
  if !job.isText && !(Path.ofText job.source).isProgram then .error .unsupportedSuffix
  else if job.inPlace && job.isText then .error .textInPlace
  else
    match job.read directory with
    | .error e => .error e
    | .ok source =>
      if job.blanks.target then .error .blankTarget
      else
        match Formatter.ofOptions job.target job.options with
        | .error e => .error (.target e)
        | .ok formatter =>
          match formatter.format source with
          | .error e => .error (.format e)
          | .ok result => .ok (source, formatter, result)

/-- The refusal of a blank limit that the parser asks for. Up to there, the program is read as with
any other limit. -/
def blankLimit? (job : Job) (program : Program) : Option RunError :=
  if job.blanks.rounds then some .blankRounds
  else if job.blanks.depth then program.nesting?.map .blankDepth
  else none

/-- The file that the result is written into, if it is. -/
def destination? (job : Job) : Option Text :=
  if job.check then none
  else if job.inPlace then some job.name
  else if job.out.isEmpty then none
  else some job.out

/-- The result delivered: written into a file or printed, or compared with the source. -/
def deliver (job : Job) (result : Formatted) (w : Workspace) : Except RunError Nat × Workspace :=
  if job.check then
    if result.changed then (.ok statusChange, w.printError ("would reformat " ++ job.name))
    else (.ok statusOk, w)
  else
    match job.destination? with
    | none => (.ok statusOk, w.print result.text)
    | some file =>
      match (w.directory.resolve? (Path.ofText file)).filter w.directory.canWrite with
      | none => (.error (.missingFile file), w)
      | some path =>
        let w := { w with directory := w.directory.write path (Text.toUtf8 result.text) }
        (.ok statusOk, job.log (logLine "ngc_cli" ("wrote " ++ file)) w)

/-- The run, with its status: that of a strict run with diagnostics goes before that of a check. -/
def run (job : Job) (w : Workspace) : Except RunError Nat × Workspace :=
  match job.format w.directory with
  | .error e => (.error e, w)
  | .ok (source, formatter, result) =>
    let w := job.log (lexerLog result.read) w
    match job.blankLimit? result.read.program with
    | some e => (.error e, w)
    | none =>
      let w := job.log (parserLog result.read) w
      let w := job.log (formatLog source formatter result) w
      let diagnostics := result.read.diagnostics
      let w := w.printErrors (diagnostics.map (·.shownFor job.name))
      match job.deliver result w with
      | (.error e, w) => (.error e, w)
      | (.ok status, w) =>
        (.ok (if job.strict && !diagnostics.isEmpty then statusDiagnostics else status), w)

end Job

end Gcode
