import Gcode.Json.Document
import Gcode.Json.Written
import Gcode.Layout.Program
import Gcode.Parse.Session
import Gcode.Token.Lexer

/-!
# Formatting

A formatter reads a program, builds its tree, and writes the tree in the form of its target: the
canonical form of the program, or a JSON dump of the tree and the diagnostics. Problems in the
program travel with the text.

## Main definitions

* `Target` — the forms that a program can be written in.
* `readProgram` — the tree of a program text, and what was reported about it.
* `Formatter` — a target and the options of a run.
* `formatSource` — a program text formatted with given options.
-/

namespace Gcode

/-- A form that a program can be written in. -/
inductive Target
  /-- The canonical form. -/
  | ngc
  /-- A dump of the tree and the diagnostics. -/
  | json
deriving DecidableEq, Repr

namespace Target

/-- The name of a target. -/
def name : Target → Text
  | .ngc => "ngc"
  | .json => "json"

/-- There is no target of the given name. -/
structure Unknown where
  name : Text
deriving DecidableEq, Repr

/-- The wording of the refusal. -/
def Unknown.message (e : Unknown) : Text := "Unknown printer target: " ++ Text.quoted e.name

/-- The target of the given name, in any case. -/
def ofName (name : Text) : Except Unknown Target :=
  let name := Text.lower name
  if name = "ngc" then .ok .ngc else if name = "json" then .ok .json else .error ⟨name⟩

end Target

/-- The choices for a run of the formatter. -/
structure FormatOptions where
  /-- The number of spaces for each level of nesting. -/
  indentWidth : Int := 2
  limits : Limits := {}
  /-- The name of the target. -/
  target : Text := "ngc"
deriving DecidableEq, Repr

/-- Why formatting fails. None of these happens to a program text. -/
inductive FormatError
  | read (refusal : Cursor.EndOfSource)
  | parse (refusal : ParseError)
  | write (refusal : Layout.Unwritable)

/-- The wording of the refusal. -/
def FormatError.message : FormatError → Text
  | .read refusal => refusal.message
  | .parse refusal => refusal.message
  | .write refusal => refusal.message

/-- A program text that has been read. -/
structure ReadProgram where
  program : Program
  /-- The number of tokens, the end mark included. -/
  tokenCount : Nat
  /-- What the lexer reported. -/
  lexical : List Report
  /-- What the parser reported. -/
  syntactic : List Report

/-- All diagnostics, those of the lexer first. -/
def ReadProgram.diagnostics (r : ReadProgram) : List Diagnostic :=
  (r.lexical ++ r.syntactic).map Report.diagnostic

/-- The tree of a program text, and what was reported about it. -/
def readProgram (source : Text) (limits : Limits) : Except FormatError ReadProgram :=
  match (Lexer.ofSource source).run with
  | .error e => .error (.read e)
  | .ok (tokens, lexer) =>
    match parse tokens limits with
    | .error e => .error (.parse e)
    | .ok (program, reports) => .ok ⟨program, tokens.length, lexer.reports, reports⟩

/-- The text of a program in the form of a target. The diagnostics are part of a dump only. -/
def Program.writtenAs (program : Program) (target : Target) (width : Int)
    (diagnostics : List Diagnostic) : Except Layout.Unwritable Text :=
  match target with
  | .ngc => program.written width
  | .json => .ok ((program.document diagnostics).written width ++ "\n")

/-- The text of any tree in the form of a target: a dump can be made of every tree, the canonical
form only of a program. -/
def Node.writtenAs (node : Option Node) (target : Target) (width : Int)
    (diagnostics : List Diagnostic) : Except Layout.Unwritable Text :=
  match target, node with
  | .json, some node => .ok ((node.dump diagnostics).written width ++ "\n")
  | .json, none => .error (.lacks (Node.className? none) "to_dict")
  | .ngc, some (.program statements) => Program.written ⟨statements⟩ width
  | .ngc, other => .error (.lacks (Node.className? other) "statements")

/-- A formatted program text. -/
structure Formatted where
  text : Text
  /-- What was read. -/
  read : ReadProgram
  /-- Whether the canonical form differs from the program text; a dump never counts as a change. -/
  changed : Bool

/-- A target, and the options of a run. The name of the target among the options is that of the
target. -/
structure Formatter where
  target : Target
  options : FormatOptions

namespace Formatter

/-- The formatter of the given options. An empty name falls back to the target that the options
name. -/
def ofOptions (name : Text) (options : FormatOptions) : Except Target.Unknown Formatter :=
  (Target.ofName (if name.isEmpty then options.target else name)).map fun target =>
    ⟨target, { options with target := target.name }⟩

/-- The tree of a program text. -/
def read (formatter : Formatter) (source : Text) : Except FormatError ReadProgram :=
  readProgram source formatter.options.limits

/-- A node that is no program cannot be written. -/
inductive RenderError
  | notAProgram
  | write (refusal : Layout.Unwritable)

/-- The wording of the refusal. -/
def RenderError.message : RenderError → Text
  | .notAProgram => "render() expects a Program node."
  | .write refusal => refusal.message

/-- The text of a program in the form of the target. -/
def write (formatter : Formatter) (program : Program) (diagnostics : List Diagnostic) :
    Except Layout.Unwritable Text :=
  program.writtenAs formatter.target formatter.options.indentWidth diagnostics

/-- The text of a node, which has to be a program. -/
def render (formatter : Formatter) (node : Option Node) (diagnostics : List Diagnostic) :
    Except RenderError Text :=
  match node.bind Program.ofNode? with
  | none => .error .notAProgram
  | some program =>
    match formatter.write program diagnostics with
    | .ok text => .ok text
    | .error e => .error (.write e)

/-- A program text formatted. -/
def format (formatter : Formatter) (source : Text) : Except FormatError Formatted :=
  match formatter.read source with
  | .error e => .error e
  | .ok r =>
    match formatter.write r.program r.diagnostics with
    | .error e => .error (.write e)
    | .ok text => .ok ⟨text, r, formatter.target = .ngc && text ≠ source⟩

end Formatter

/-- Why a program text is not formatted with the given options. -/
inductive SourceError
  | target (refusal : Target.Unknown)
  | format (refusal : FormatError)

/-- A program text formatted with the given options. -/
def formatSource (source : Text) (options : FormatOptions) : Except SourceError Formatted :=
  match Formatter.ofOptions [] options with
  | .error e => .error (.target e)
  | .ok formatter =>
    match formatter.format source with
    | .error e => .error (.format e)
    | .ok result => .ok result

end Gcode
