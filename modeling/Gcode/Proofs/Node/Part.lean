import Gcode.Node.Basic
import Gcode.Proofs.Text.Folded

/-!
# The texts that a tree holds

Read from left to right, a tree is a sequence of texts: what stands in its leaves, the words,
names and operators of its inner nodes, and the marks around their operands. All of them stand in
the program as they stand in the tree, except for the keywords of headers, which the tree has in
upper case.

## Main definitions

* `Node.parts` — the texts of a node in order.
* `Node.flat` — the texts of a node, one behind the other.
* `Part.Spell` — texts that a sequence of parts may stand for.
-/

namespace Gcode

section Outcome

variable {ε α β : Type} {x : Except ε α} {b : β}

theorem map_eq_ok {f : α → β} : x.map f = .ok b ↔ ∃ a, x = .ok a ∧ f a = b := by
  cases x <;> simp [Except.map]

theorem bind_eq_ok {f : α → Except ε β} : x.bind f = .ok b ↔ ∃ a, x = .ok a ∧ f a = .ok b := by
  cases x <;> simp [Except.bind]

end Outcome

/-- A text that a tree holds. -/
inductive Part
  /-- A text as it stands in the program. -/
  | verbatim (text : Text)
  /-- The keyword of a header. -/
  | keyword (text : Text)
deriving DecidableEq, Repr

namespace Part

/-- The text as the tree holds it. -/
def text : Part → Text
  | .verbatim text => text
  | .keyword text => text

/-- The text as the canonical form has it: a keyword in lower case. -/
def lowered : Part → Text
  | .verbatim text => text
  | .keyword text => Text.lower text

/-- The program may have `t` where the tree has the part: the same text, or a keyword that is made
of the same ASCII letters in any case. -/
def Admits : Part → Text → Prop
  | .verbatim text, t => t = text
  | .keyword text, t => t.Ascii ∧ Text.folded t = Text.folded text

/-- The parts, one behind the other, may stand for the text. -/
inductive Spell : List Part → Text → Prop
  | nil : Spell [] []
  | cons {part : Part} {parts : List Part} {t u : Text} : part.Admits t → Spell parts u →
    Spell (part :: parts) (t ++ u)

end Part

namespace Node

mutual

/-- The texts of a node in order. -/
def parts : Node → List Part
  | .number text | .parameter text | .unknown text _ | .comment text | .endOfLine text =>
    [.verbatim text]
  | .unary operator operand => .verbatim operator :: parts? operand
  | .binary operator left right => parts? left ++ .verbatim operator :: parts? right
  | .bracketed inner closed =>
    .verbatim "[" :: parts? inner ++ if closed then [.verbatim "]"] else []
  | .word letter value => .verbatim letter :: parts? value
  | .call name argument => .verbatim name :: parts? argument
  | .header oWord name keyword condition =>
    .verbatim oWord :: parts? name ++ .keyword keyword :: parts? condition
  | .commandLine nodes => partsOf nodes
  | .oStatement head line => parts? head ++ parts? line
  | .assignment target value => .verbatim target :: .verbatim "=" :: parts? value
  | .block _ head body closing => parts? head ++ partsOf body ++ parts? closing
  | .program statements => partsOf statements

/-- The texts of a node that may be missing. -/
def parts? : Option Node → List Part
  | none => []
  | some node => parts node

/-- The texts of nodes that stand one behind the other. -/
def partsOf : List (Option Node) → List Part
  | [] => []
  | node :: nodes => parts? node ++ partsOf nodes

end

/-- The texts of a node, one behind the other. -/
def flat (node : Node) : Text := node.parts.flatMap Part.text

theorem partsOf_append (ns ms : List (Option Node)) :
    partsOf (ns ++ ms) = partsOf ns ++ partsOf ms := by
  induction ns with
  | nil => rfl
  | cons n ns ih => simp [partsOf, ih]

end Node

namespace Part.Spell

theorem single {part : Part} {t : Text} (h : part.Admits t) : Spell [part] t := by
  have key := Spell.cons h .nil
  rwa [List.append_nil] at key

theorem verbatim (t : Text) : Spell [.verbatim t] t := single rfl

theorem append {ps qs : List Part} {t u : Text} (h : Spell ps t) (k : Spell qs u) :
    Spell (ps ++ qs) (t ++ u) := by
  induction h with
  | nil => exact k
  | cons ha _ ih =>
    rw [List.cons_append, List.append_assoc]
    exact .cons ha ih

/-- Up to case, parts stand for the texts that the tree holds. -/
theorem folded_eq {ps : List Part} {t : Text} (h : Spell ps t) :
    Text.folded t = Text.folded (ps.flatMap Part.text) := by
  induction h with
  | nil => rfl
  | @cons part parts t u ha _ ih =>
    have hpart : Text.folded t = Text.folded part.text := by
      cases part with
      | verbatim text => exact congrArg Text.folded ha
      | keyword text => exact ha.2
    rw [Text.folded_append, hpart, ih, List.flatMap_cons, Text.folded_append]

/-- Up to case, parts stand for what the canonical form has of them. -/
theorem folded_eq_lowered {ps : List Part} {t : Text} (h : Spell ps t) :
    Text.folded t = Text.folded (ps.flatMap Part.lowered) := by
  induction h with
  | nil => rfl
  | @cons part parts t u ha _ ih =>
    have hpart : Text.folded t = Text.folded part.lowered := by
      cases part with
      | verbatim text => exact congrArg Text.folded ha
      | keyword text =>
        rw [lowered, ← Text.lower_eq_of_folded_eq ha.2, Text.lower_eq_folded ha.1,
          Text.folded_folded]
    rw [Text.folded_append, hpart, ih, List.flatMap_cons, Text.folded_append]

end Part.Spell

end Gcode
