import Gcode.Proofs.Parse.Expression

/-!
# Room for nesting

Every level of an expression takes a token: a sign, a bracket, a function name or an operator. So
the limit on nesting is not reached as long as it leaves room for as many levels as there are
tokens ahead.

## Main definitions

* `Parse.Roomy` — no limit is reached, and the height of a tree was paid for in tokens.

## Main statements

* `Parse.value_unguarded` — an expression with room for its tokens reaches no limit.
-/

namespace Gcode

namespace Node

@[simp] theorem height_none : height none = 0 := by
  rw [height_eq_longestPath?]
  rfl

/-- A node is one level above its operand. -/
theorem height_eq_of_operands {n : Node} {operand : Option Node} (h : n.operands = [operand]) :
    height (some n) = 1 + height operand := by
  rw [height_eq_longestPath?, height_eq_longestPath?, longestPath?]
  cases n <;> cases h <;> rfl

theorem height_leaf {n : Node} (h : n.operands = []) : height (some n) = 1 := by
  rw [height_eq_longestPath?, longestPath?]
  cases n <;> first | rfl | cases h

theorem height_binary (operator : Text) (left right : Option Node) :
    height (some (.binary operator left right)) = 1 + max (height left) (height right) := by
  simp only [height_eq_longestPath?]
  rfl

end Node

namespace Parse

open Node (height)

variable (s : Setting)

/-- No limit is reached, and the height of the tree and the tokens that are left come to no more
than `size`. -/
def Roomy (size : Nat) {ahead : List Token} (p : Parsed (Option Node) ahead) : Prop :=
  ¬Guarded p.reports ∧ height p.value + p.rest.length ≤ size

theorem Roomy.mono {size size' : Nat} {ahead : List Token} {p : Parsed (Option Node) ahead}
    (h : Roomy size p) (hle : size ≤ size') : Roomy size' p := ⟨h.1, Nat.le_trans h.2 hle⟩

theorem not_guarded_nil : ¬Guarded [] := fun ⟨_, h, _⟩ => nomatch h

theorem not_guarded_singleton {r : Report} (h : r.kind ≠ .livenessGuard) : ¬Guarded [r] := by
  simpa [Guarded] using h

theorem expect_unguarded (kind : TokenKind) (ahead : List Token) :
    ¬Guarded (expect s kind ahead).reports := by
  unfold expect
  dsimp only
  split
  · exact not_guarded_nil
  · exact not_guarded_singleton (by simp [Report.kind, Problem.kind])

theorem length_signs (ahead : List Token) :
    (signs ahead).value.length + (signs ahead).rest.length = ahead.length := by
  obtain ⟨hvalue, hrest, -⟩ := signs_eq ahead
  rw [hvalue, hrest, List.length_map, ← List.length_append, List.takeWhile_append_dropWhile]

theorem height_withSigns (signs : List Text) (operand : Option Node) :
    height (withSigns signs operand) = signs.length + height operand := by
  induction signs with
  | nil => simp [withSigns]
  | cons sign signs ih =>
    have hunary : height (withSigns (sign :: signs) operand) =
        1 + height (withSigns signs operand) := Node.height_eq_of_operands rfl
    rw [hunary, ih, List.length_cons]
    omega

mutual

theorem value_roomy (depth : Nat) (ahead : List Token)
    (h : ((depth + ahead.length : Nat) : Int) ≤ s.maxDepth) :
    Roomy ahead.length (value s depth ahead) := by
  rw [value]
  obtain ⟨hg, hsize⟩ := operand_roomy depth ahead h
  obtain ⟨hg', hsize'⟩ := chain_roomy depth (operand s depth ahead).value 0
    (operand s depth ahead).rest (by omega)
  refine ⟨?_, Nat.le_trans hsize' hsize⟩
  dsimp only [Parsed.behind]
  rw [guarded_append, not_or]
  exact ⟨hg, hg'⟩
termination_by (ahead.length, 4)
decreasing_by
  · exact Prod.Lex.right _ (by omega)
  · exact Prod.Lex.right' _ (Parsed.length_rest_le _) (by omega)

theorem chain_roomy (depth : Nat) (left : Option Node) (least : Int) (ahead : List Token)
    (h : ((depth + (height left + ahead.length) : Nat) : Int) ≤ s.maxDepth) :
    Roomy (height left + ahead.length) (chain s depth left (height left) least ahead) := by
  match ahead with
  | [] =>
    rw [chain]
    exact ⟨not_guarded_nil, Nat.le_refl _⟩
  | t :: rest =>
    rw [chain]
    by_cases hb : binds t least = true
    · rw [if_pos hb]
      exact link_roomy depth t left least rest h
    · rw [if_neg hb]
      exact ⟨not_guarded_nil, Nat.le_refl _⟩
termination_by (ahead.length, 3)
decreasing_by exact Prod.Lex.left _ _ (by simp)

/-- The level of the operator is paid for with its token, which stands in front of `ahead`. -/
theorem link_roomy (depth : Nat) (t : Token) (left : Option Node) (least : Int)
    (ahead : List Token)
    (h : ((depth + (height left + (ahead.length + 1)) : Nat) : Int) ≤ s.maxDepth) :
    Roomy (height left + (ahead.length + 1)) (link s depth t left (height left) least ahead) := by
  rw [link, if_neg (by omega)]
  obtain ⟨hg, hsize⟩ := operand_roomy depth ahead (by omega)
  obtain ⟨hg', hsize'⟩ := tighten_roomy depth (operand s depth ahead).value
    (Keyword.precedence t.value) (operand s depth ahead).rest (by omega)
  dsimp only
  generalize hright : tighten s depth (operand s depth ahead).value
    (Keyword.precedence t.value) (operand s depth ahead).rest = right at hg' hsize'
  have hroot := Node.height_binary t.value left right.value
  obtain ⟨hg'', hsize''⟩ := chain_roomy depth (some (.binary t.value left right.value)) least
    right.rest (by omega)
  rw [hroot] at hg'' hsize''
  refine ⟨?_, ?_⟩
  · dsimp only [Parsed.behind]
    rw [guarded_append, guarded_append, not_or, not_or]
    exact ⟨⟨hg, hg'⟩, hg''⟩
  · exact Nat.le_trans hsize'' (by omega)
termination_by (ahead.length, 5)
decreasing_by
  · exact Prod.Lex.right _ (by omega)
  · exact Prod.Lex.right' _ (Parsed.length_rest_le _) (by omega)
  · refine Prod.Lex.right' _ ?_ (by omega)
    exact Nat.le_trans (Parsed.length_rest_le _) (Parsed.length_rest_le _)

theorem tighten_roomy (depth : Nat) (right : Option Node) (bound : Int) (ahead : List Token)
    (h : ((depth + (height right + ahead.length) : Nat) : Int) ≤ s.maxDepth) :
    Roomy (height right + ahead.length) (tighten s depth right bound ahead) := by
  match ahead with
  | [] =>
    rw [tighten]
    exact ⟨not_guarded_nil, Nat.le_refl _⟩
  | t :: rest =>
    rw [tighten]
    split
    · obtain ⟨hg, hsize⟩ := link_roomy depth t right (Keyword.precedence t.value) rest h
      dsimp only
      generalize link s depth t right (height right) (Keyword.precedence t.value) rest = tighter
        at hg hsize
      rw [List.length_cons] at h
      obtain ⟨hg', hsize'⟩ := tighten_roomy depth tighter.value bound tighter.rest (by omega)
      refine ⟨?_, Nat.le_trans hsize' hsize⟩
      dsimp only [Parsed.behind, Parsed.behindToken]
      rw [guarded_append, not_or]
      exact ⟨hg, hg'⟩
    · exact ⟨not_guarded_nil, Nat.le_refl _⟩
termination_by (ahead.length, 3)
decreasing_by
  · exact Prod.Lex.left _ _ (by simp)
  · refine Prod.Lex.left _ _ ?_
    exact Nat.lt_succ_of_le (Parsed.length_rest_le _)

theorem operand_roomy (depth : Nat) (ahead : List Token)
    (h : ((depth + ahead.length : Nat) : Int) ≤ s.maxDepth) :
    Roomy ahead.length (operand s depth ahead) := by
  have hlength := length_signs ahead
  obtain ⟨-, -, hreports⟩ := signs_eq ahead
  rw [operand]
  dsimp only
  rw [if_neg (by omega)]
  obtain ⟨hg, hsize⟩ := primary_roomy (depth + (signs ahead).value.length) (signs ahead).rest
    (by omega)
  refine ⟨?_, ?_⟩
  · dsimp only [Parsed.behind, Parsed.map]
    rwa [hreports]
  · dsimp only [Parsed.behind, Parsed.map]
    rw [height_withSigns]
    omega
termination_by (ahead.length, 2)
decreasing_by exact Prod.Lex.right' _ (Parsed.length_rest_le _) (by omega)

theorem primary_roomy (depth : Nat) (ahead : List Token)
    (h : ((depth + ahead.length : Nat) : Int) ≤ s.maxDepth) :
    Roomy ahead.length (primary s depth ahead) := by
  match ahead with
  | [] =>
    rw [primary]
    exact ⟨not_guarded_singleton (by simp [Report.kind, Problem.kind]), by simp [Parsed.reporting]⟩
  | t :: rest =>
    rw [List.length_cons] at h ⊢
    have hleaf : ∀ (n : Node) (behind : List Token), height (some n) = 1 →
        height (some n) + behind.length ≤ behind.length + 1 := fun n behind hn => by omega
    have hchild : ∀ n : Node, n.operands = [none] → height (some n) = 1 := fun n hn => by
      rw [Node.height_eq_of_operands hn, Node.height_none]
    unfold primary
    split
    case h_1 => exact ⟨not_guarded_nil, hleaf _ rest (Node.height_leaf rfl)⟩
    case h_2 => exact ⟨not_guarded_nil, hleaf _ rest (Node.height_leaf rfl)⟩
    case h_3 => exact opened_roomy depth t rest h
    case h_4 =>
      cases hr : rest with
      | nil => exact ⟨not_guarded_nil, hleaf _ [] (hchild _ rfl)⟩
      | cons u more =>
        rw [hr, List.length_cons] at h
        dsimp only
        split
        · obtain ⟨hg, hsize⟩ := opened_roomy depth u more (by omega)
          refine ⟨hg, ?_⟩
          dsimp only [Parsed.behindToken, Parsed.map, List.length_cons] at hsize ⊢
          rw [Node.height_eq_of_operands rfl]
          omega
        · exact ⟨not_guarded_nil, hleaf _ (u :: more) (hchild _ rfl)⟩
    case h_5 => exact ⟨not_guarded_nil, hleaf _ rest (hchild _ rfl)⟩
    case h_6 =>
      exact ⟨not_guarded_singleton (by simp [Report.kind, Problem.kind]),
        by simp [Parsed.reporting]⟩
termination_by (ahead.length, 1)
decreasing_by
  · exact Prod.Lex.right _ (by omega)
  · exact Prod.Lex.left _ _ (by simp [hr])

/-- A bracket is read one level deeper than it stands, which is paid for with its token. -/
theorem opened_roomy (depth : Nat) (t : Token) (rest : List Token)
    (h : ((depth + (rest.length + 1) : Nat) : Int) ≤ s.maxDepth) :
    Roomy (rest.length + 1) ((opened s depth t rest).map some) := by
  rw [opened, if_neg (by omega), enclosed]
  obtain ⟨hg, hsize⟩ := value_roomy (depth + 1) rest (by omega)
  have hclose := (expect s .closeBracket (value s (depth + 1) rest).rest).length_rest_le
  refine ⟨?_, ?_⟩
  · dsimp only [Parsed.behind, Parsed.behindToken, Parsed.map]
    rw [guarded_append, not_or]
    exact ⟨hg, expect_unguarded s .closeBracket _⟩
  · dsimp only [Parsed.behind, Parsed.behindToken, Parsed.map]
    rw [Node.height_eq_of_operands rfl]
    omega
termination_by (rest.length + 1, 0)
decreasing_by exact Prod.Lex.left _ _ (by simp)

end

/-- An expression reaches no limit on nesting if there is room for as many levels as there are
tokens ahead. -/
theorem value_unguarded (depth : Nat) (ahead : List Token)
    (h : ((depth + ahead.length : Nat) : Int) ≤ s.maxDepth) :
    ¬Guarded (value s depth ahead).reports := (value_roomy s depth ahead h).1

end Parse

end Gcode
