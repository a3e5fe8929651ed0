import Gcode.Token.Keyword

/-!
# Segmenting a run of letters

Letters are not separated in a program, so a run of them is cut into keywords and words of one
letter, from the left and each time at the longest keyword that the rest begins with.

## Main statements

* `flatMap_segment` — the pieces make up the run.
* `value_ne_nil_of_mem_segment` — no piece is empty.
-/

namespace Gcode.Keyword

/-- The length of the longest keyword that the text begins with, among the lengths up to `n`; 0
if there is none. -/
def longestUpTo : Nat → Text → Nat
  | 0, _ => 0
  | n + 1, t => if isKeyword (t.take (n + 1)) then n + 1 else longestUpTo n t

/-- The length of the longest keyword that the text begins with; 0 if there is none. -/
def longest (t : Text) : Nat := longestUpTo (min t.length maxLength) t

theorem longestUpTo_le (n : Nat) (t : Text) : longestUpTo n t ≤ n := by
  induction n with
  | zero => simp [longestUpTo]
  | succ n ih =>
    unfold longestUpTo
    split <;> omega

/-- A keyword is no longer than the text that begins with it. -/
theorem longest_le_length (t : Text) : longest t ≤ t.length :=
  Nat.le_trans (longestUpTo_le _ t) (Nat.min_le_left _ _)

end Gcode.Keyword

namespace Gcode.Token

/-- The tokens that a run of letters consists of, all on one line. -/
def segment (line : Int) : Text → List Token
  | [] => []
  | c :: rest =>
    match Keyword.longest (c :: rest) with
    | 0 => ⟨.word, [c], line⟩ :: segment line rest
    | n + 1 =>
      ⟨Keyword.kindOf (c :: rest.take n), c :: rest.take n, line⟩ :: segment line (rest.drop n)
termination_by t => t.length
decreasing_by all_goals simp; try omega

/-- The pieces make up the run. -/
theorem flatMap_segment (line : Int) (t : Text) : (segment line t).flatMap Token.value = t := by
  fun_induction segment line t with
  | case1 => rfl
  | case2 c rest _ ih => simp [ih]
  | case3 c rest n _ ih => simp [ih]

/-- No piece is empty. -/
theorem value_ne_nil_of_mem_segment {line : Int} {t : Text} {token : Token}
    (h : token ∈ segment line t) : token.value ≠ [] := by
  fun_induction segment line t with
  | case1 => simp at h
  | case2 c rest _ ih =>
    rcases List.mem_cons.mp h with rfl | h
    · simp
    · exact ih h
  | case3 c rest n _ ih =>
    rcases List.mem_cons.mp h with rfl | h
    · simp
    · exact ih h

/-- There are no more pieces than letters. -/
theorem length_segment_le (line : Int) (t : Text) : (segment line t).length ≤ t.length := by
  fun_induction segment line t with
  | case1 => simp
  | case2 c rest _ ih => simp; omega
  | case3 c rest n _ ih =>
    simp only [List.length_cons, List.length_drop] at ih ⊢
    omega

end Gcode.Token
