import Gcode.Node.Shown
import Gcode.Node.Style
import Gcode.Text.Casing

/-!
# Labels

A label is compared by its flat text: literals as they are written, signs in front of their
operand, a chain of operators with each link in parentheses, and brackets closed whether the
source closes them or not. Two labels match if their flat texts agree in lower case.

## Main definitions

* `Node.label` — the flat text.
* `Node.labelsMatch` — whether two labels match.
-/

namespace Gcode.Node

/-- The node is no expression and so no part of a label. -/
structure NotALabel where
  node : Node

/-- The wording of the refusal. -/
def NotALabel.message (e : NotALabel) : Text := "Not a label expression: " ++ shown e.node

/-- The style of labels. -/
def labelStyle : Style NotALabel where
  leaf
    | .number text => .ok text
    | .parameter text => .ok text
    | .unknown text _ => .ok text
    | node => .error ⟨node⟩
  brackets inner _ := "[" ++ inner ++ "]"
  link left operator right := "(" ++ left ++ operator ++ right ++ ")"

/-- The flat text of a label. A missing part has no text. -/
def label (n : Option Node) : Except NotALabel Text := labelStyle.text n

/-- Whether two labels match: their flat texts agree in lower case. -/
def labelsMatch (a b : Option Node) : Except NotALabel Bool :=
  (label a).bind fun s => (label b).map fun t => Text.lower s = Text.lower t

/-- The label as a message names it: only one that is a single literal is given. -/
def describedLabel : Option Node → Text
  | some (.number text) => text
  | some (.parameter text) => text
  | _ => []

end Gcode.Node
