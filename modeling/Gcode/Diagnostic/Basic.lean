import Gcode.Text.Quoted

/-!
# Diagnostics

What is told to the user about a program: the kind of a problem, a message and a line. Problems
never stop the work on a program, and each stage adds its diagnostics in order of occurrence.
-/

namespace Gcode

/-- The kind of a problem. -/
inductive DiagnosticKind
  /-- Text that no token can be read from as it stands. -/
  | lexicalAnomaly
  /-- A token or an operand that is missing. -/
  | syntaxMismatch
  /-- Text that no statement can hold. -/
  | unexpectedToken
  /-- A block that nothing closes. -/
  | unmatchedBlock
  /-- A limit on nesting or on the rounds of a loop was reached. -/
  | livenessGuard
deriving DecidableEq, Repr

namespace DiagnosticKind

/-- The name of a kind. -/
def name : DiagnosticKind → Text
  | .lexicalAnomaly => "LexicalAnomaly"
  | .syntaxMismatch => "SyntaxMismatch"
  | .unexpectedToken => "UnexpectedToken"
  | .unmatchedBlock => "UnmatchedBlock"
  | .livenessGuard => "LivenessGuard"

/-- All kinds. -/
def all : List DiagnosticKind :=
  [.lexicalAnomaly, .syntaxMismatch, .unexpectedToken, .unmatchedBlock, .livenessGuard]

/-- There is no kind of the given name. -/
structure Unknown where
  name : Text
deriving DecidableEq, Repr

/-- The wording of the refusal. -/
def Unknown.message (e : Unknown) : Text := Text.quoted e.name ++ " is not a valid DiagnosticKind"

/-- The kind of the given name. -/
def ofName (name : Text) : Except Unknown DiagnosticKind :=
  match all.find? fun kind => kind.name = name with
  | some kind => .ok kind
  | none => .error ⟨name⟩

end DiagnosticKind

/-- A problem as it is told to the user. Line 0 stands for a line that is not known. -/
structure Diagnostic where
  kind : DiagnosticKind
  message : Text
  line : Int
deriving DecidableEq, Repr

namespace Diagnostic

/-- The line, the kind and the message. -/
def shown (d : Diagnostic) : Text :=
  Text.ofInt d.line ++ ": " ++ d.kind.name ++ ": " ++ d.message

/-- The diagnostic as it is shown for a source of the given name. -/
def shownFor (d : Diagnostic) (source : Text) : Text := source ++ ":" ++ d.shown

end Diagnostic

end Gcode
