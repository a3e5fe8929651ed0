import Gcode.Node.Basic

/-!
# Where nesting begins

Values, labels and brackets count against the limit on nesting; plain words, comments, line breaks
and unplaced text do not. A program without any of the former is read the same whatever the limit
is. What matters of the others is which comes first.

## Main definitions

* `Program.nesting?` — the first part of a program that asks for the limit on nesting.
-/

namespace Gcode

/-- A part of a program that asks for the limit on nesting. -/
inductive Nesting
  /-- A bracket that stands as a command, or behind a function name that does. -/
  | bracket
  /-- A value of a word, an assigned value, or a label. -/
  | value
deriving DecidableEq, Repr

/-- How a command asks for the limit on nesting, if it does. -/
def Node.commandNesting? : Option Node → Option Nesting
  | some (.bracketed _ _) | some (.call _ (some _)) => some .bracket
  | some (.word _ (some _)) => some .value
  | _ => none

/-- How a statement first asks for the limit on nesting, if it does. -/
def Node.nesting? : Option Node → Option Nesting
  | some (.assignment _ _) | some (.oStatement _ _) | some (.block _ _ _ _) => some .value
  | some (.commandLine commands) => commands.findSome? Node.commandNesting?
  | _ => none

/-- How a program first asks for the limit on nesting, if it does. -/
def Program.nesting? (program : Program) : Option Nesting :=
  program.statements.findSome? Node.nesting?

end Gcode
