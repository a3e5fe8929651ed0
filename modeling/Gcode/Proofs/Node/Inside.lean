import Gcode.Node.Basic

/-!
# What is inside a node

A node is inside a tree if it is the tree itself or inside one of its children. What holds of
every node inside a tree holds of the root and of every node inside the children.

## Main definitions

* `Node.children` — the children of a node of any kind.
* `Node.Inside` — a node somewhere in a tree.
* `Node.Every` — a property of every node inside a tree that may be missing.
-/

namespace Gcode.Node

/-- The children of a node in order, those that are missing among them. -/
def children : Node → List (Option Node)
  | .header _ label _ condition => [label, condition]
  | .commandLine commands => commands
  | .oStatement head line => [head, line]
  | .assignment _ value => [value]
  | .block _ head body closing => head :: closing :: body
  | .program statements => statements
  | node => node.operands

/-- The node `m` is the tree, or somewhere below its root. -/
inductive Inside (m : Node) : Node → Prop
  | refl : Inside m m
  | child {n c : Node} : some c ∈ n.children → Inside m c → Inside m n

/-- The property holds of every node inside the tree, if there is one. -/
def Every (P : Node → Prop) (n : Option Node) : Prop := ∀ root ∈ n, ∀ m, Inside m root → P m

variable {P : Node → Prop}

@[simp] theorem every_none : Every P none := fun _ h => by cases h

theorem Every.imp {Q : Node → Prop} {n : Option Node} (h : Every P n) (hpq : ∀ m, P m → Q m) :
    Every Q n := fun root hroot m hm => hpq m (h root hroot m hm)

theorem every_some_iff {n : Node} :
    Every P (some n) ↔ P n ∧ ∀ c ∈ n.children, Every P c := by
  constructor
  · intro h
    refine ⟨h n rfl n .refl, fun c hc root hroot m hm => h n rfl m (.child ?_ hm)⟩
    rwa [Option.mem_def.mp hroot] at hc
  · rintro ⟨hroot, hchildren⟩ root h m hm
    obtain rfl : n = root := Option.some.inj h
    cases hm with
    | refl => exact hroot
    | child hc hm => exact hchildren _ hc _ rfl m hm

end Gcode.Node
