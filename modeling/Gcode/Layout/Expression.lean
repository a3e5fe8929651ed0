import Gcode.Node.Style
import Gcode.Text.Casing
import Gcode.Text.WhiteSpace

/-!
# Writing expressions

Expressions, commands and headers as the canonical form of a program has them: operators stand
between single spaces, everything else touches, and a missing part is left out.

## Main definitions

* `Layout.expression` — an expression.
* `Layout.header`, `Layout.commands` — the parts of statements.
-/

namespace Gcode.Layout

/-- The canonical form has no way to write a tree. -/
inductive Unwritable
  /-- A node of the kind is in the place of a statement. -/
  | statement (kind : Text)
  /-- A node of the kind is in the place of an expression. -/
  | expression (kind : Text)
  /-- A node of the class is in the place of one that has the part. -/
  | lacks (className part : Text)
  /-- A node of the class is in the place of a list of commands. -/
  | noList (className : Text)
deriving DecidableEq, Repr

/-- The wording of the refusal. -/
def Unwritable.message : Unwritable → Text
  | .statement kind => "No printer method for node kind '" ++ kind ++ "'"
  | .expression kind => "No expression printer for node kind '" ++ kind ++ "'"
  | .lacks className part => "'" ++ className ++ "' object has no attribute '" ++ part ++ "'"
  | .noList className => "'" ++ className ++ "' object is not iterable"

/-- The canonical style. Where an operand of an operator is missing, no space is left at the end
of the text, and brackets are closed only if the source closes them. -/
def style : Style Unwritable where
  leaf
    | .number text => .ok text
    | .parameter text => .ok text
    | .comment text => .ok text
    | .unknown text _ => .ok text
    | node => .error (.expression node.kindName)
  brackets inner closed := "[" ++ inner ++ (if closed then "]" else "")
  link left operator right := Text.trim (left ++ " " ++ operator ++ " " ++ right)

/-- An expression as it is written. A missing one leaves no text. -/
def expression (n : Option Node) : Except Unwritable Text := style.text n

/-- A header: the o-word with its label, the keyword in lower case, and the condition. -/
def header : Option Node → Except Unwritable Text
  | some (.header oWord label keyword condition) => do
    let label ← expression label
    let keyword := if keyword.isEmpty then [] else ' ' :: Text.lower keyword
    match condition with
    | none => return oWord ++ label ++ keyword
    | some condition => return oWord ++ label ++ keyword ++ " " ++ (← expression (some condition))
  | other => .error (.lacks (Node.className? other) "o_word")

/-- The texts of commands, in order. -/
def commandTexts : List (Option Node) → Except Unwritable (List Text)
  | [] => .ok []
  | node :: nodes => do
    let text ← expression node
    let texts ← commandTexts nodes
    return text :: texts

/-- A line of commands, with single spaces between them. -/
def commands (nodes : List (Option Node)) : Except Unwritable Text :=
  (commandTexts nodes).map (Text.joined " ")

/-- The line of commands behind a header, with a space in front unless it is empty. What stands in
its place may have commands of its own, which are no list; it is empty if they are missing. -/
def commandsBehind : Option Node → Except Unwritable Text
  | some (.commandLine nodes) =>
    if nodes.isEmpty then .ok [] else (commands nodes).map (' ' :: ·)
  | some (.oStatement _ none) => .ok []
  | some (.oStatement _ (some inner)) => .error (.noList inner.className)
  | other => .error (.lacks (Node.className? other) "commands")

end Gcode.Layout
