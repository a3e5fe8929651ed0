import Gcode.Node.Basic

/-!
# The height of an expression

The number of nodes on the longest way from the root of an expression to a leaf. A missing
operand has height 0, and a node that is no expression is a leaf.

## Main definitions

* `Node.height` — the height, found with a stack of the nodes still to be visited.
* `Node.longestPath` — the height by recursion on the tree.

## Main statements

* `height_eq_longestPath?` — the two agree.
-/

namespace Gcode.Node

/-- The sizes of the nodes on a stack, taken together. -/
noncomputable def stackSize : List (Option Node × Nat) → Nat
  | [] => 0
  | entry :: stack => sizeOf entry.1 + stackSize stack

/-- The greatest of `best` and the levels of the nodes below those on the stack. The operands of a
node are put on the stack in order, so that the last of them is the next one visited. -/
def heightFrom : List (Option Node × Nat) → Nat → Nat
  | [], best => best
  | (none, _) :: stack, best => heightFrom stack best
  | (some node, level) :: stack, best =>
    heightFrom ((node.operands.map (·, level + 1)).reverse ++ stack) (max best level)
termination_by stack => stackSize stack
decreasing_by
  · simp [stackSize]
  · cases node <;> simp [operands, stackSize] <;> omega

/-- The height of an expression. -/
def height (n : Option Node) : Nat := heightFrom [(n, 1)] 0

mutual

/-- The height of a node: one more than that of its highest operand. -/
def longestPath : Node → Nat
  | .unary _ operand => 1 + longestPath? operand
  | .binary _ left right => 1 + max (longestPath? left) (longestPath? right)
  | .bracketed inner _ => 1 + longestPath? inner
  | .word _ value => 1 + longestPath? value
  | .call _ argument => 1 + longestPath? argument
  | _ => 1

/-- The height of a node that may be missing. -/
def longestPath? : Option Node → Nat
  | none => 0
  | some node => longestPath node

end

/-! ## The walk and the recursion agree -/

/-- The level of the lowest node below an entry of the stack. -/
def lowest : Option Node × Nat → Nat
  | (none, _) => 0
  | (some node, level) => level + longestPath node - 1

theorem lowest_operands (node : Node) (level best : Nat) :
    (node.operands.map (·, level + 1)).reverse.foldl (fun b entry => max b (lowest entry))
      (max best level) = max best (lowest (some node, level)) := by
  cases node with
  | unary _ a | bracketed a _ | word _ a | call _ a =>
    cases a <;> simp [operands, lowest, longestPath, longestPath?]
    omega
  | binary _ a b =>
    cases a <;> cases b <;> simp [operands, lowest, longestPath, longestPath?] <;> omega
  | _ => simp [operands, lowest, longestPath]

theorem heightFrom_eq (stack : List (Option Node × Nat)) (best : Nat) :
    heightFrom stack best = stack.foldl (fun b entry => max b (lowest entry)) best := by
  fun_induction heightFrom stack best with
  | case1 => rfl
  | case2 => simp_all [lowest]
  | case3 best node level stack ih =>
    rw [ih, List.foldl_append, lowest_operands, List.foldl_cons]

/-- The walk finds the length of the longest way. -/
theorem height_eq_longestPath? (n : Option Node) : height n = longestPath? n := by
  rw [height, heightFrom_eq]
  cases n <;> simp [lowest, longestPath?]

end Gcode.Node
