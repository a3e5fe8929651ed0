import Gcode.Proofs.Node.Inside

/-!
# How many blocks are around a node

The statements in a block have one block more around them than the block has; the headers that
open and close it stand where it stands. So each node of a tree has a number of blocks around it,
and a property of nodes may depend on that number.

## Main definitions

* `Node.frame`, `Node.body` — the children of a node, those that stand in a block apart.
* `Node.Beneath` — a node somewhere in a tree, with a number of blocks around it.
* `Node.EveryAt` — a property of every node of a tree and the number of blocks around it.
-/

namespace Gcode.Node

/-- The statements in a block; other nodes have none. -/
def body : Node → List (Option Node)
  | .block _ _ body _ => body
  | _ => []

/-- The children of a node but for the statements in a block. -/
def frame : Node → List (Option Node)
  | .block _ head _ closing => [head, closing]
  | node => node.children

theorem mem_children_iff {n : Node} {c : Option Node} :
    c ∈ n.children ↔ c ∈ n.frame ∨ c ∈ n.body := by
  cases n <;> simp [children, frame, body, or_assoc]

/-- The node `m` is the tree, or somewhere below its root, and stands in `blocks` blocks of it. -/
inductive Beneath (m : Node) : Nat → Node → Prop
  | refl : Beneath m 0 m
  | frame {blocks : Nat} {n c : Node} : some c ∈ n.frame → Beneath m blocks c → Beneath m blocks n
  | body {blocks : Nat} {n c : Node} : some c ∈ n.body → Beneath m blocks c →
    Beneath m (blocks + 1) n

theorem Beneath.inside {m n : Node} {blocks : Nat} (h : Beneath m blocks n) : Inside m n := by
  induction h with
  | refl => exact .refl
  | frame hc _ ih => exact .child (mem_children_iff.mpr (.inl hc)) ih
  | body hc _ ih => exact .child (mem_children_iff.mpr (.inr hc)) ih

/-- Every node inside a tree has a number of blocks around it. -/
theorem Inside.exists_beneath {m n : Node} (h : Inside m n) : ∃ blocks, Beneath m blocks n := by
  induction h with
  | refl => exact ⟨0, .refl⟩
  | child hc _ ih =>
    obtain ⟨blocks, hblocks⟩ := ih
    rcases mem_children_iff.mp hc with hc | hc
    · exact ⟨blocks, .frame hc hblocks⟩
    · exact ⟨blocks + 1, .body hc hblocks⟩

/-- The property holds of every node of the tree, if there is one, and the number of blocks around
it: those of the tree, and `depth` more around the tree. -/
def EveryAt (P : Nat → Node → Prop) (depth : Nat) (n : Option Node) : Prop :=
  ∀ root ∈ n, ∀ blocks m, Beneath m blocks root → P (depth + blocks) m

variable {P : Nat → Node → Prop} {depth : Nat}

@[simp] theorem everyAt_none : EveryAt P depth none := fun _ h => by cases h

theorem everyAt_some_iff {n : Node} :
    EveryAt P depth (some n) ↔ P depth n ∧ (∀ c ∈ n.frame, EveryAt P depth c) ∧
      ∀ c ∈ n.body, EveryAt P (depth + 1) c := by
  constructor
  · intro h
    refine ⟨h n rfl 0 n .refl, fun c hc root hroot blocks m hm => ?_,
      fun c hc root hroot blocks m hm => ?_⟩
    · rw [Option.mem_def.mp hroot] at hc
      exact h n rfl blocks m (.frame hc hm)
    · rw [Option.mem_def.mp hroot] at hc
      rw [Nat.add_assoc, Nat.add_comm 1]
      exact h n rfl (blocks + 1) m (.body hc hm)
  · rintro ⟨hroot, hframe, hbody⟩ root h blocks m hm
    obtain rfl : n = root := Option.some.inj h
    cases hm with
    | refl => exact hroot
    | frame hc hm => exact hframe _ hc _ rfl blocks m hm
    | @body inner _ _ hc hm =>
      have key := hbody _ hc _ rfl inner m hm
      rwa [Nat.add_assoc, Nat.add_comm 1] at key

/-- A node that is no block has the same number of blocks around it as its children. -/
theorem everyAt_some_iff_of_body {n : Node} (hn : n.body = []) (hframe : n.frame = n.children) :
    EveryAt P depth (some n) ↔ P depth n ∧ ∀ c ∈ n.children, EveryAt P depth c := by
  rw [everyAt_some_iff, hn, hframe]
  simp

/-- A property that does not depend on the number of blocks holds of every node. -/
theorem everyAt_const {Q : Node → Prop} {n : Option Node} :
    EveryAt (fun _ => Q) depth n ↔ Every Q n := by
  constructor
  · intro h root hroot m hm
    obtain ⟨blocks, hblocks⟩ := hm.exists_beneath
    exact h root hroot blocks m hblocks
  · exact fun h root hroot _ m hm => h root hroot m hm.inside

/-- A property that a block more around a node does not make any weaker. -/
theorem EveryAt.shallower (hP : ∀ depth m, P (depth + 1) m → P depth m) {n : Option Node}
    (h : EveryAt P (depth + 1) n) : EveryAt P depth n := by
  intro root hroot blocks m hm
  have key := h root hroot blocks m hm
  rw [Nat.add_right_comm] at key
  exact hP _ m key

end Gcode.Node
