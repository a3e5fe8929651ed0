import Gcode.Proofs.Node.Part
import Gcode.Proofs.Text.Ink

/-!
# What is written at once

A program is written in fragments: a line break, a comment or stray text, an assignment, a header,
or a line of commands. A fragment is trimmed where the layout expects nothing but blanks at its
end; what stands there is white space of another kind only if a name or stray text ends in it.

## Main definitions

* `Node.unspaced` — the text of a node in its canonical form, before blanks are put in.
* `Fragment`, `Node.fragments` — what is written at once, and the fragments of a node in order.
* `Fragment.Whole`, `Fragment.Seam` — nothing is lost within a fragment, and between two.
* `Program.Unfrayed` — no trimming takes anything but blanks from the program.
-/

namespace Gcode

namespace Node

/-- The text of a node with its keywords in lower case. -/
def unspaced (n : Option Node) : Text := (parts? n).flatMap Part.lowered

mutual

/-- No operator with its operands, within the expression, begins or ends in white space other than
blanks. -/
def Whole : Node → Prop
  | .unary _ operand => Whole? operand
  | .binary operator left right =>
    (Whole? left ∧ Whole? right) ∧ Text.Firm (unspaced left ++ operator ++ unspaced right)
  | .bracketed inner _ => Whole? inner
  | .word _ value => Whole? value
  | .call _ argument => Whole? argument
  | _ => True

/-- The same of an expression that may be missing. -/
def Whole? : Option Node → Prop
  | none => True
  | some node => Whole node

end

end Node

/-- What is written at once. -/
inductive Fragment
  | lineBreak (text : Text)
  | comment (text : Text)
  | stray (text : Text)
  | assignment (target : Text) (value : Option Node)
  | header (head : Option Node)
  | commands (nodes : List (Option Node))
  /-- The commands behind a header. -/
  | tail (nodes : List (Option Node))

namespace Fragment

/-- The texts of a fragment in order. -/
def parts : Fragment → List Part
  | .lineBreak text | .comment text | .stray text => [.verbatim text]
  | .assignment target value => .verbatim target :: .verbatim "=" :: Node.parts? value
  | .header head => Node.parts? head
  | .commands nodes | .tail nodes => Node.partsOf nodes

/-- The text of a fragment before blanks are put in. -/
def unspaced (f : Fragment) : Text := f.parts.flatMap Part.lowered

/-- The fragment is a line break. -/
def isLineBreak : Fragment → Bool
  | .lineBreak _ => true
  | _ => false

/-- The fragment opens a statement: on a line, a space separates it from the one before it. -/
def opens : Fragment → Bool
  | .lineBreak _ | .tail _ => false
  | _ => true

/-- The fragment stands behind a header. -/
def isTail : Fragment → Bool
  | .tail _ => true
  | _ => false

theorem isLineBreak_of_opens {f : Fragment} (h : f.opens = true) : f.isLineBreak = false := by
  cases f <;> first | rfl | cases h

/-- What stands behind a header neither opens a statement nor breaks a line. -/
theorem isTail_eq (f : Fragment) : f.isTail = (!f.opens && !f.isLineBreak) := by
  cases f <;> rfl

/-- Nothing but blanks is trimmed away within the fragment. -/
def Whole : Fragment → Prop
  | .lineBreak _ | .comment _ | .stray _ => True
  | .assignment target value =>
    Node.Whole? value ∧ Text.Sturdy (unspaced (.assignment target value))
  | .header (some (.header _ label _ condition)) => Node.Whole? label ∧ Node.Whole? condition
  | .header _ => True
  | .commands nodes | .tail nodes => ∀ node ∈ nodes, Node.Whole? node

/-- Nothing but blanks is trimmed away from `a` when `b` follows it. -/
def Seam (a b : Fragment) : Prop :=
  b.opens = true → a.isLineBreak = true ∨ Text.Sturdy a.unspaced

end Fragment

namespace Node

mutual

/-- The fragments of a statement in order. -/
def fragments : Node → List Fragment
  | .endOfLine text => [.lineBreak text]
  | .comment text => [.comment text]
  | .unknown text _ => [.stray text]
  | .assignment target value => [.assignment target value]
  | .commandLine nodes => if nodes.isEmpty then [] else [.commands nodes]
  | .oStatement head line => .header head :: tail line
  | .block _ head body closing =>
    .header head :: fragmentsOf body ++ (closing.map fun node => .header (some node)).toList
  | _ => []

/-- The fragments of statements that stand one behind the other. -/
def fragmentsOf : List (Option Node) → List Fragment
  | [] => []
  | none :: nodes => fragmentsOf nodes
  | some node :: nodes => fragments node ++ fragmentsOf nodes

/-- The commands behind a header as a fragment, unless there are none. -/
def tail : Option Node → List Fragment
  | some (.commandLine nodes) => if nodes.isEmpty then [] else [.tail nodes]
  | _ => []

end

end Node

/-- Writing the fragments one behind the other trims nothing but blanks away. -/
def Fragment.Intact (fs : List Fragment) : Prop := (∀ f ∈ fs, f.Whole) ∧ fs.IsChain Seam

/-- Writing the program trims nothing but blanks away: no operator with its operands, no assigned
value, and no fragment before another statement on its line ends in other white space. -/
def Program.Unfrayed (program : Program) : Prop :=
  Fragment.Intact (Node.fragmentsOf program.statements)

end Gcode
