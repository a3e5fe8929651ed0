import Gcode.Text.Basic

/-!
# Sets of code points

A property of characters is stored as the ascending list of its edges: the code points at which
a stretch that has the property begins or ends, in turn. A code point has the property if an odd
number of edges lies at or below it.
-/

namespace Gcode.Text.CodePointSet

/-- Whether the code point lies in a stretch that the edges delimit. -/
def contains (edges : List Nat) (n : Nat) : Bool :=
  match edges with
  | [] => false
  | edge :: rest => n ≥ edge && !contains rest n

@[simp] theorem contains_nil (n : Nat) : contains [] n = false := rfl

/-- Below the first edge lies nothing. -/
theorem contains_of_lt {edge n : Nat} (rest : List Nat) (h : n < edge) :
    contains (edge :: rest) n = false := by
  simp [contains, Nat.not_le.mpr h]

/-- From one edge up to the next lies one stretch. -/
theorem contains_of_le_of_lt {low high n : Nat} (rest : List Nat) (hl : low ≤ n) (hh : n < high) :
    contains (low :: high :: rest) n = true := by
  simp [contains, hl, Nat.not_le.mpr hh]

end Gcode.Text.CodePointSet
