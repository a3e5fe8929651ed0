import Gcode.Node.Height
import Gcode.Proofs.Node.Beneath

/-!
# Trees of expressions

Nothing is in an expression but expressions: the children of each node are its operands. So there
is no block in it, and no node in it is higher than the whole.

## Main definitions

* `Node.OfOperands` — a tree with nothing but expressions in it.

## Main statements

* `Node.OfOperands.height_le` — no node is higher than the tree that it is in.
* `Node.OfOperands.eq_zero_of_beneath` — there is no block around any node in the tree.
-/

namespace Gcode.Node

/-- A block has its headers as children, which are no operands. -/
theorem ne_block_of_children_eq {n : Node} (h : n.children = n.operands) (keyword : Text)
    (head : Option Node) (body : List (Option Node)) (closing : Option Node) :
    n ≠ .block keyword head body closing := by
  rintro rfl
  cases h

/-- Nothing is in the tree but expressions. -/
def OfOperands (n : Option Node) : Prop := Every (fun m => m.children = m.operands) n

theorem height_pos (n : Node) : 0 < height (some n) := by
  rw [height_eq_longestPath?, longestPath?]
  cases n <;> simp only [longestPath] <;> omega

theorem height_lt_of_mem_operands {n : Node} {c : Option Node} (h : c ∈ n.operands) :
    height c < height (some n) := by
  rw [height_eq_longestPath?, height_eq_longestPath?, longestPath?]
  cases n with
  | unary | bracketed | word | call =>
    obtain rfl := List.mem_singleton.mp h
    rw [longestPath]
    omega
  | binary operator left right =>
    rw [longestPath]
    rcases List.mem_cons.mp h with rfl | h
    · omega
    · obtain rfl := List.mem_singleton.mp h
      omega
  | _ => cases h

namespace OfOperands

theorem missing : OfOperands none := every_none

theorem leaf {n : Node} (hn : n.children = []) (hoperands : n.operands = []) :
    OfOperands (some n) := by
  refine every_some_iff.mpr ⟨hn.trans hoperands.symm, ?_⟩
  rw [hn]
  exact List.forall_mem_nil _

theorem around {n : Node} {child : Option Node} (hn : n.children = n.operands)
    (hchild : n.operands = [child]) (h : OfOperands child) : OfOperands (some n) := by
  refine every_some_iff.mpr ⟨hn, ?_⟩
  rw [hn, hchild]
  exact List.forall_mem_singleton.mpr h

theorem binary (operator : Text) {left right : Option Node} (hl : OfOperands left)
    (hr : OfOperands right) : OfOperands (some (.binary operator left right)) := by
  refine every_some_iff.mpr ⟨rfl, ?_⟩
  simpa [children, operands] using ⟨hl, hr⟩

/-- No node is higher than the tree that it is in. -/
theorem height_le {n m : Node} (h : OfOperands (some n)) (hm : Inside m n) :
    height (some m) ≤ height (some n) := by
  induction hm with
  | refl => exact Nat.le_refl _
  | child hc _ ih =>
    obtain ⟨hroot, hchildren⟩ := every_some_iff.mp h
    exact Nat.le_trans (ih (hchildren _ hc)) (Nat.le_of_lt (height_lt_of_mem_operands (hroot ▸ hc)))

/-- There is no block around any node in the tree. -/
theorem eq_zero_of_beneath {n m : Node} {blocks : Nat} (h : OfOperands (some n))
    (hm : Beneath m blocks n) : blocks = 0 := by
  induction hm with
  | refl => rfl
  | frame hc _ ih =>
    exact ih ((every_some_iff.mp h).2 _ (mem_children_iff.mpr (.inl hc)))
  | @body _ n _ hc _ _ =>
    cases n with
    | block => exact absurd rfl (ne_block_of_children_eq (every_some_iff.mp h).1 _ _ _ _)
    | _ => cases hc

end OfOperands

end Gcode.Node
