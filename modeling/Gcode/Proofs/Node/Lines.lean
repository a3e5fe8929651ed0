import Gcode.Node.Height
import Gcode.Node.Label
import Gcode.Proofs.Node.Part

/-!
# Trees without regard to lines

A tree holds a line only where it holds text that has no place in it. Trees are compared without
regard to these lines by seeing the lines through a function: neither the height of an expression
nor which labels match depends on what the function makes of them.

## Main definitions

* `Node.relined` — a tree with its lines seen through a function.

## Main statements

* `Node.height_relined`, `Node.labelsMatch_relined` — heights and labels do not depend on lines.
* `Node.relined_id` — a tree is itself if its lines stay as they are.
-/

namespace Gcode.Node

variable (g : Int → Int)

mutual

/-- The tree with its lines seen through a function. -/
def relined : Node → Node
  | .number text => .number text
  | .parameter text => .parameter text
  | .unary operator operand => .unary operator (relined? operand)
  | .binary operator left right => .binary operator (relined? left) (relined? right)
  | .bracketed inner closed => .bracketed (relined? inner) closed
  | .word letter value => .word letter (relined? value)
  | .call name argument => .call name (relined? argument)
  | .unknown text line => .unknown text (g line)
  | .comment text => .comment text
  | .endOfLine text => .endOfLine text
  | .header oWord label keyword condition =>
    .header oWord (relined? label) keyword (relined? condition)
  | .commandLine nodes => .commandLine (relinedOf nodes)
  | .oStatement head line => .oStatement (relined? head) (relined? line)
  | .assignment target value => .assignment target (relined? value)
  | .block keyword head body closing =>
    .block keyword (relined? head) (relinedOf body) (relined? closing)
  | .program statements => .program (relinedOf statements)

/-- A tree that may be missing with its lines seen through a function. -/
def relined? : Option Node → Option Node
  | none => none
  | some node => some (relined node)

/-- Trees with their lines seen through a function. -/
def relinedOf : List (Option Node) → List (Option Node)
  | [] => []
  | node :: nodes => relined? node :: relinedOf nodes

end

@[simp] theorem relined?_none : relined? g none = none := rfl

@[simp] theorem relined?_some (node : Node) : relined? g (some node) = some (relined g node) := rfl

theorem relinedOf_map_some (nodes : List Node) :
    relinedOf g (nodes.map some) = (nodes.map (relined g)).map some := by
  induction nodes with
  | nil => rfl
  | cons node nodes ih => simp [relinedOf, ih]

@[simp] theorem isSome_relined? (n : Option Node) : (relined? g n).isSome = n.isSome := by
  cases n <;> rfl

/-! ## Heights and labels -/

mutual

theorem longestPath_relined (n : Node) : longestPath (relined g n) = longestPath n := by
  match n with
  | .unary _ operand | .bracketed operand _ | .word _ operand | .call _ operand =>
    simp only [relined, longestPath, longestPath?_relined operand]
  | .binary _ left right =>
    simp only [relined, longestPath, longestPath?_relined left, longestPath?_relined right]
  | .number _ | .parameter _ | .unknown _ _ | .comment _ | .endOfLine _ | .header _ _ _ _
  | .commandLine _ | .oStatement _ _ | .assignment _ _ | .block _ _ _ _ | .program _ => rfl

theorem longestPath?_relined (n : Option Node) :
    longestPath? (relined? g n) = longestPath? n := by
  match n with
  | none => rfl
  | some n => exact longestPath_relined n

end

@[simp] theorem height_relined (n : Option Node) : height (relined? g n) = height n := by
  rw [height_eq_longestPath?, height_eq_longestPath?, longestPath?_relined]

@[simp] theorem describedLabel_relined (n : Option Node) :
    describedLabel (relined? g n) = describedLabel n := by
  match n with
  | none => rfl
  | some n => cases n <;> rfl

mutual

theorem plainText_relined (n : Node) (text : Text) :
    labelStyle.plainText (relined g n) = .ok text ↔ labelStyle.plainText n = .ok text := by
  match n with
  | .number _ | .parameter _ | .unknown _ _ => exact Iff.rfl
  | .unary _ operand | .word _ operand | .call _ operand | .bracketed operand _ =>
    simp only [relined, Style.plainText, map_eq_ok, plainText?_relined operand]
  | .binary _ left right =>
    simp only [relined, Style.plainText, map_eq_ok, bind_eq_ok, plainText?_relined left,
      plainText?_relined right]
  | .comment _ | .endOfLine _ | .header _ _ _ _ | .commandLine _ | .oStatement _ _
  | .assignment _ _ | .block _ _ _ _ | .program _ =>
    simp [relined, Style.plainText, labelStyle]

theorem plainText?_relined (n : Option Node) (text : Text) :
    labelStyle.plainText? (relined? g n) = .ok text ↔ labelStyle.plainText? n = .ok text := by
  match n with
  | none => exact Iff.rfl
  | some n => exact plainText_relined n text

end

theorem label_relined (n : Option Node) (text : Text) :
    label (relined? g n) = .ok text ↔ label n = .ok text := by
  rw [label, label, Style.text_eq_plainText?, Style.text_eq_plainText?, plainText?_relined]

/-- Which labels match does not depend on lines. -/
theorem labelsMatch_relined (a b : Option Node) (r : Bool) :
    labelsMatch (relined? g a) (relined? g b) = .ok r ↔ labelsMatch a b = .ok r := by
  simp only [labelsMatch, bind_eq_ok, map_eq_ok, label_relined]

/-! ## Lines that stay as they are -/

mutual

theorem relined_id (n : Node) : relined id n = n := by
  match n with
  | .number _ | .parameter _ | .unknown _ _ | .comment _ | .endOfLine _ => rfl
  | .unary _ a | .bracketed a _ | .word _ a | .call _ a | .assignment _ a =>
    rw [relined, relined?_id a]
  | .binary _ a b | .header _ a _ b | .oStatement a b =>
    rw [relined, relined?_id a, relined?_id b]
  | .commandLine nodes | .program nodes => rw [relined, relinedOf_id nodes]
  | .block _ head body closing =>
    rw [relined, relined?_id head, relinedOf_id body, relined?_id closing]

theorem relined?_id (n : Option Node) : relined? id n = n := by
  match n with
  | none => rfl
  | some n => rw [relined?_some, relined_id n]

theorem relinedOf_id (ns : List (Option Node)) : relinedOf id ns = ns := by
  match ns with
  | [] => rfl
  | n :: ns => rw [relinedOf, relined?_id n, relinedOf_id ns]

end

theorem map_relined_id (ns : List Node) : ns.map (relined id) = ns := by
  have hid : relined id = id := funext relined_id
  rw [hid, List.map_id]

end Gcode.Node
