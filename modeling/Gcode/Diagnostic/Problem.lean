import Gcode.Diagnostic.Basic
import Gcode.Text.Casing
import Gcode.Token.Basic

/-!
# Problems

The causes for which the stages report something, each with its kind and its wording. A report
is a problem on a line; a diagnostic is what the user is told of it.
-/

namespace Gcode

/-- The cause of a report. -/
inductive Problem
  /-- A parenthesized comment that the line ends in. -/
  | unterminatedComment (text : Text)
  /-- A decimal point with no digit beside it. -/
  | lonePoint
  /-- A token of another class stands where one is needed. -/
  | missingToken (wanted : TokenKind) (found : Token)
  /-- No operand stands where one is needed. -/
  | missingOperand (found : Token)
  /-- Text that no statement can hold. -/
  | strayText (text : Text)
  /-- A block with no line that closes it. -/
  | unclosedBlock (start keyword close : Text)
  /-- A block beyond the limit on nesting. -/
  | deepBlock (limit : Int) (keyword : Text)
  /-- A bracket beyond the limit on nesting. -/
  | deepBracket (limit : Int)
  /-- More signs in front of an operand than the limit on nesting allows. -/
  | deepSigns (limit : Int)
  /-- A chain of operators beyond the limit on nesting. -/
  | deepChain (limit : Int)
  /-- A loop that read no token in a round. -/
  | stalled (place : Text) (position : Nat)
  /-- A loop that used up its rounds. -/
  | overrun (place : Text) (limit : Int)
deriving DecidableEq, Repr

namespace Problem

/-- The kind of a problem. -/
def kind : Problem → DiagnosticKind
  | .unterminatedComment _ | .lonePoint => .lexicalAnomaly
  | .missingToken _ _ | .missingOperand _ => .syntaxMismatch
  | .strayText _ => .unexpectedToken
  | .unclosedBlock _ _ _ => .unmatchedBlock
  | .deepBlock _ _ | .deepBracket _ | .deepSigns _ | .deepChain _ | .stalled _ _ | .overrun _ _ =>
    .livenessGuard

/-- The token as messages name it: its class and its quoted text. -/
private def named (token : Token) : Text := token.kind.name ++ " " ++ Text.quoted token.value

/-- The wording of a problem. -/
def message : Problem → Text
  | .unterminatedComment text => "unterminated comment " ++ Text.quoted text
  | .lonePoint => "lone decimal point"
  | .missingToken wanted found => "Expected " ++ wanted.name ++ ", got " ++ named found
  | .missingOperand found => "Expected an expression, got " ++ named found
  | .strayText text => "Unexpected token sequence " ++ Text.quoted text
  | .unclosedBlock start keyword close =>
    start ++ " " ++ Text.lower keyword ++ " has no matching " ++ Text.lower close
  | .deepBlock limit keyword =>
    "Blocks nested deeper than " ++ Text.ofInt limit ++ "; " ++ keyword ++ " left unstructured"
  | .deepBracket limit => "Brackets nested deeper than " ++ Text.ofInt limit
  | .deepSigns limit => "Unary chain nested deeper than " ++ Text.ofInt limit
  | .deepChain limit => "Expression chain nested deeper than " ++ Text.ofInt limit
  | .stalled place position =>
    "Parser stuck in " ++ place ++ " at token " ++ Text.ofNat position ++ "; no tokens consumed"
  | .overrun place limit => place ++ " exceeded " ++ Text.ofInt limit ++ " iterations"

end Problem

/-- A problem and the line it is on. -/
structure Report where
  problem : Problem
  line : Int
deriving DecidableEq, Repr

namespace Report

/-- The kind of the problem. -/
def kind (report : Report) : DiagnosticKind := report.problem.kind

/-- What the user is told. -/
def diagnostic (report : Report) : Diagnostic :=
  ⟨report.kind, report.problem.message, report.line⟩

end Report

end Gcode
