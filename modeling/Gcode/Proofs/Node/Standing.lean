import Gcode.Proofs.Node.Inside
import Gcode.Proofs.Node.Part

/-!
# Where a node stands in a tree

From left to right, a node has texts of its own and children in an order. Where a node stands in a
tree, some of the texts of the tree come before it and the others behind it. One and the same node
may stand at several places of a tree.

## Main definitions

* `Node.items` — the texts of a node and its children, from left to right.
* `Node.Stands` — a node at a place of a tree.

## Main statements

* `Node.Stands.parts_eq` — a tree holds what is before a node, what the node holds and what is
  behind it.
* `Node.Inside.exists_stands` — every node inside a tree stands somewhere in it.
-/

namespace Gcode.Node

/-- What a node has at one place. -/
inductive Item
  | own (part : Part)
  | child (node : Option Node)

/-- The texts of an item in order. -/
def Item.parts : Item → List Part
  | .own part => [part]
  | .child node => parts? node

/-- The texts of a node and its children, from left to right. -/
def items : Node → List Item
  | .number text | .parameter text | .unknown text _ | .comment text | .endOfLine text =>
    [.own (.verbatim text)]
  | .unary operator operand => [.own (.verbatim operator), .child operand]
  | .binary operator left right => [.child left, .own (.verbatim operator), .child right]
  | .bracketed inner closed =>
    .own (.verbatim "[") :: .child inner :: if closed then [.own (.verbatim "]")] else []
  | .word letter value => [.own (.verbatim letter), .child value]
  | .call name argument => [.own (.verbatim name), .child argument]
  | .header oWord name keyword condition =>
    [.own (.verbatim oWord), .child name, .own (.keyword keyword), .child condition]
  | .commandLine nodes => nodes.map .child
  | .oStatement head line => [.child head, .child line]
  | .assignment target value =>
    [.own (.verbatim target), .own (.verbatim "="), .child value]
  | .block _ head body closing => .child head :: body.map .child ++ [.child closing]
  | .program statements => statements.map .child

theorem partsOf_eq (nodes : List (Option Node)) :
    partsOf nodes = (nodes.map Item.child).flatMap Item.parts := by
  induction nodes with
  | nil => rfl
  | cons n nodes ih => exact congrArg (parts? n ++ ·) ih

/-- The texts of a node are those of its items. -/
theorem parts_eq (n : Node) : n.parts = n.items.flatMap Item.parts := by
  cases n with
  | bracketed inner closed => cases closed <;> simp [parts, items, Item.parts]
  | commandLine nodes | program nodes => exact partsOf_eq nodes
  | block keyword head body closing => simp [parts, items, Item.parts, partsOf_eq]
  | _ => simp [parts, items, Item.parts]

theorem child_mem_items_iff {n : Node} {c : Option Node} :
    Item.child c ∈ n.items ↔ c ∈ n.children := by
  cases n with
  | bracketed inner closed => cases closed <;> simp [items, children, operands]
  | block keyword head body closing =>
    simp [items, children, or_comm]
  | _ => simp [items, children, operands]

/-- The node `m` stands in the tree with the texts `before` before it and `behind` behind it. -/
inductive Stands (m : Node) : List Part → List Part → Node → Prop
  | root : Stands m [] [] m
  | child {n c : Node} {left right : List Item} {before behind : List Part} :
    n.items = left ++ .child (some c) :: right → Stands m before behind c →
    Stands m (left.flatMap Item.parts ++ before) (behind ++ right.flatMap Item.parts) n

/-- A tree holds what is before a node, what the node holds and what is behind it. -/
theorem Stands.parts_eq {m n : Node} {before behind : List Part} (h : Stands m before behind n) :
    n.parts = before ++ m.parts ++ behind := by
  induction h with
  | root => simp
  | child hitems _ ih =>
    rw [Node.parts_eq, hitems, List.flatMap_append, List.flatMap_cons, Item.parts, parts?, ih]
    simp only [List.append_assoc]

/-- Every node inside a tree stands somewhere in it. -/
theorem Inside.exists_stands {m n : Node} (h : Inside m n) :
    ∃ before behind, Stands m before behind n := by
  induction h with
  | refl => exact ⟨[], [], .root⟩
  | child hc _ ih =>
    obtain ⟨before, behind, hstands⟩ := ih
    obtain ⟨left, right, hitems⟩ := List.append_of_mem (child_mem_items_iff.mpr hc)
    exact ⟨_, _, .child hitems hstands⟩

/-- What stands in a tree is inside it. -/
theorem Stands.inside {m n : Node} {before behind : List Part} (h : Stands m before behind n) :
    Inside m n := by
  induction h with
  | root => exact .refl
  | child hitems _ ih =>
    refine .child (child_mem_items_iff.mp ?_) ih
    rw [hitems]
    exact List.mem_append_right _ List.mem_cons_self

end Gcode.Node
