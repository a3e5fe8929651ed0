import Gcode.Node.Basic

/-!
# Spines

A chain of signs in front of an operand, and a chain of operators that lean to the left, are
walked in a loop along their spine rather than one call per link, so that the length of a chain
costs no call depth. The spine of a chain lists its links from the inside out.

## Main statements

* `weight_leftSpine`, `sizeOf_signSpine` — walking a spine yields parts of the chain only.
-/

namespace Gcode.Node

/-- A link of a chain of operators: an operator and its right operand. -/
abbrev Link := Text × Option Node

/-- The leftmost operand of a chain of operators, and the links behind it in order, put in front
of those already passed. -/
def leftSpine (links : List Link) : Option Node → Option Node × List Link
  | some (.binary operator left right) => leftSpine ((operator, right) :: links) left
  | base => (base, links)

/-- The signs of a chain, one behind the other, and the operand they stand in front of. -/
def signSpine (signs : Text) : Option Node → Text × Option Node
  | some (.unary operator operand) => signSpine (signs ++ operator) operand
  | base => (signs, base)

/-- What the links weigh: the sizes of the operands, and one for each link. -/
noncomputable def weight : List Link → Nat
  | [] => 0
  | link :: links => sizeOf link.2 + 1 + weight links

@[simp] theorem weight_nil : weight [] = 0 := rfl

@[simp] theorem weight_cons (link : Link) (links : List Link) :
    weight (link :: links) = sizeOf link.2 + 1 + weight links := rfl

/-- A spine holds no more than the chain that it is the spine of. -/
theorem weight_leftSpine (links : List Link) (n : Option Node) :
    sizeOf (leftSpine links n).1 + weight (leftSpine links n).2 ≤ sizeOf n + weight links := by
  fun_induction leftSpine links n with
  | case1 links operator left right ih =>
    simp only [weight_cons] at ih
    simp only [Option.some.sizeOf_spec, Node.binary.sizeOf_spec]
    omega
  | case2 => simp

theorem sizeOf_signSpine (signs : Text) (n : Option Node) :
    sizeOf (signSpine signs n).2 ≤ sizeOf n := by
  fun_induction signSpine signs n with
  | case1 signs operator operand ih =>
    simp only [Option.some.sizeOf_spec, Node.unary.sizeOf_spec]
    omega
  | case2 => simp

end Gcode.Node
