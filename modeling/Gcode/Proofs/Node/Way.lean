import Gcode.Proofs.Node.Operands

/-!
# Ways from the root to a leaf

On its way down to a leaf of a tree, a way meets nodes that count against the limit on nesting:
blocks, brackets, signs and operators. At some of these it may turn aside, into a part of the node
that is read before or after the level of the node is counted: into the right operand of an
operator, into either operand of one that was cut off, and into the header that opens a block.

## Main definitions

* `Node.straight`, `Node.aside` — the children of a node, those that a way turns aside to apart.
* `Node.Way` — a way from the root of a tree to a leaf.
* `Node.Within` — ways through a tree meet no more nodes that count than there is room for, and one
  more for each turn aside.

## Main statements

* `Node.OfOperands.nested_le` — on no way there are more nodes that count than the tree is high.
-/

namespace Gcode.Node

/-- The number of levels that the node counts for against the limit on nesting. -/
def level : Node → Nat
  | .block _ _ _ _ | .bracketed _ _ | .unary _ _ | .binary _ _ _ => 1
  | _ => 0

/-- The parts of a node that are read when its level is not counted. The operand on the right of an
operator is text if the operator is beyond the limit. -/
def aside : Node → List (Option Node)
  | .binary _ left (some (.unknown text line)) => [left, some (.unknown text line)]
  | .binary _ _ right => [right]
  | .block _ head _ _ => [head]
  | _ => []

/-- The parts of a node that are read when its level is counted. -/
def straight : Node → List (Option Node)
  | .binary _ _ (some (.unknown _ _)) => []
  | .binary _ left _ => [left]
  | .block _ _ body closing => closing :: body
  | node => node.children

theorem mem_children_iff_aside {n : Node} {c : Option Node} :
    c ∈ n.children ↔ c ∈ n.straight ∨ c ∈ n.aside := by
  unfold straight aside
  cases n with
  | binary operator left right =>
    split <;> simp_all [children, operands]
  | block => simp [children, or_comm]
  | _ => simp

theorem eq_left_of_mem_straight {operator : Text} {left right c : Option Node}
    (h : c ∈ (binary operator left right).straight) : c = left := by
  cases right with
  | none => exact List.mem_singleton.mp h
  | some right =>
    cases right with
    | unknown => cases h
    | _ => exact List.mem_singleton.mp h

/-- A way from the root of a tree to a leaf. It meets `nested` levels of nesting and turns aside
`turns` times. -/
inductive Way : Node → Nat → Nat → Prop
  | leaf {n : Node} : (∀ c ∈ n.children, c = none) → Way n n.level 0
  | straight {n c : Node} {nested turns : Nat} : some c ∈ n.straight → Way c nested turns →
    Way n (n.level + nested) turns
  | aside {n c : Node} {nested turns : Nat} : some c ∈ n.aside → Way c nested turns →
    Way n (n.level + nested) (turns + 1)

theorem level_le_one (n : Node) : n.level ≤ 1 := by
  cases n <;> simp [level]

/-- On no way through an expression there are more levels of nesting than it is high. -/
theorem OfOperands.nested_le {n : Node} (h : OfOperands (some n)) {nested turns : Nat}
    (hway : Way n nested turns) : nested ≤ height (some n) := by
  have hdown : ∀ {n c : Node} {nested : Nat}, OfOperands (some n) → some c ∈ n.children →
      (OfOperands (some c) → nested ≤ height (some c)) →
      n.level + nested ≤ height (some n) := by
    intro n c nested hn hc ih
    obtain ⟨hroot, hchildren⟩ := every_some_iff.mp hn
    have hle := ih (hchildren _ hc)
    have hlt := height_lt_of_mem_operands (hroot ▸ hc)
    have hlevel := level_le_one n
    omega
  induction hway with
  | @leaf n _ => exact Nat.le_trans (level_le_one n) (height_pos n)
  | straight hc _ ih => exact hdown h (mem_children_iff_aside.mpr (.inl hc)) ih
  | aside hc _ ih => exact hdown h (mem_children_iff_aside.mpr (.inr hc)) ih

/-! ## Room for ways -/

/-- No way through the tree, if there is one, meets more levels than there is room for, and one
more for each turn aside. -/
def Within (room : Nat) (n : Option Node) : Prop :=
  ∀ root ∈ n, ∀ nested turns, Way root nested turns → nested ≤ room + turns

namespace Within

variable {room room' : Nat}

theorem missing (room : Nat) : Within room none := fun _ h => by cases h

theorem mono {n : Option Node} (h : Within room n) (hle : room ≤ room') : Within room' n :=
  fun root hroot nested turns hway =>
    Nat.le_trans (h root hroot nested turns hway) (Nat.add_le_add_right hle turns)

/-- A node takes the room for its level from the parts to which a way goes straight, and from no
part to which it turns aside. -/
theorem node {n : Node} (hlevel : n.level ≤ room')
    (hstraight : ∀ c ∈ n.straight, ∀ room, room' = room + n.level → Within room c)
    (haside : ∀ c ∈ n.aside, Within room' c) : Within room' (some n) := by
  rintro root ⟨⟩ nested turns hway
  obtain ⟨room, rfl⟩ := Nat.exists_eq_add_of_le' hlevel
  cases hway with
  | leaf => omega
  | @straight _ c nested turns hc hway =>
    have hle := hstraight _ hc room rfl c rfl nested turns hway
    omega
  | @aside _ c nested turns hc hway =>
    have hle := haside _ hc c rfl nested turns hway
    have hone := level_le_one n
    omega

/-- The only child of a node is straight on. -/
theorem around {n : Node} {child : Option Node} (hstraight : n.straight = [child])
    (haside : n.aside = []) (h : Within room child) : Within (room + n.level) (some n) := by
  refine node (Nat.le_add_left _ _) (fun c hc room' hroom => ?_) fun c hc => ?_
  · rw [hstraight] at hc
    obtain rfl := List.mem_singleton.mp hc
    obtain rfl := Nat.add_right_cancel hroom
    exact h
  · rw [haside] at hc
    cases hc

/-- A node that does not count against the limit on nesting. -/
theorem plain {n : Node} (hlevel : n.level = 0) (hstraight : n.straight = n.children)
    (haside : n.aside = []) (h : ∀ c ∈ n.children, Within room c) : Within room (some n) := by
  refine node (hlevel ▸ Nat.zero_le room) (fun c hc room' hroom => ?_) fun c hc => ?_
  · rw [hlevel, Nat.add_zero] at hroom
    exact hroom ▸ h c (hstraight ▸ hc)
  · rw [haside] at hc
    cases hc

/-- A way goes straight through an operator into the operand on its left. -/
theorem binary {operator : Text} {left right : Option Node} (hleft : Within room left)
    (hright : Within (room + 1) right) :
    Within (room + 1) (some (.binary operator left right)) := by
  refine node (Nat.le_add_left 1 room) (fun c hc room' hroom => ?_) fun c hc => ?_
  · obtain rfl := Nat.add_right_cancel hroom
    exact eq_left_of_mem_straight hc ▸ hleft
  · have hboth : c ∈ [left, right] := mem_children_iff_aside.mpr (.inr hc)
    rcases List.mem_cons.mp hboth with rfl | hc
    · exact hleft.mono (Nat.le_succ room)
    · exact List.mem_singleton.mp hc ▸ hright

/-- A way turns aside into both operands of an operator that was cut off, one of which is text. -/
theorem cutOff {operator text : Text} {line : Int} {left : Option Node}
    (hleft : Within room left) :
    Within room (some (.binary operator left (some (.unknown text line)))) := by
  rintro root ⟨⟩ nested turns hway
  cases hway with
  | leaf h => cases h _ (List.mem_cons_of_mem left (List.mem_singleton_self _))
  | straight hc => cases hc
  | @aside _ c nested turns hc hway =>
    have hlevel : (Node.binary operator left (some (.unknown text line))).level = 1 := rfl
    have hle : nested ≤ room + turns := by
      rcases List.mem_cons.mp hc with rfl | hc
      · exact hleft c rfl nested turns hway
      · obtain rfl := Option.some.inj (List.mem_singleton.mp hc)
        cases hway with
        | leaf => exact Nat.zero_le _
        | straight hc | aside hc => cases hc
    omega

end Within

/-- An expression is within the room for its height. -/
theorem OfOperands.within {n : Option Node} (h : OfOperands n) {room : Nat}
    (hle : height n ≤ room) : Within room n := by
  rintro root rfl nested turns hway
  exact Nat.le_trans (h.nested_le hway) (Nat.le_trans hle (Nat.le_add_right room turns))

end Gcode.Node
