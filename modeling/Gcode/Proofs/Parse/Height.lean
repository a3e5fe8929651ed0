import Gcode.Proofs.Node.Operands
import Gcode.Proofs.Parse.Precedence
import Gcode.Proofs.Parse.Room

/-!
# How high an expression is

The limit on nesting leaves some room at each depth. A level of room is spent on a sign or on a
bracket. Operators spend none, but they cannot pile up: one that binds tighter than the operator
before it goes into the right operand of that one, which happens at most once for each
precedence; one that does not goes above it, where the room bounds what is below. An operator
beyond the limit is the last one of its expression. So ten levels for each level of room are
enough: seven precedences, the operator beyond the limit, a bracket, and a function name in front
of it.

## Main definitions

* `Setting.room` — the levels of nesting that are left.
* `Parse.levels` — the number of precedences that are not lower than a given one.
* `Parse.Low` — a tree of a given height, or one level more if no operator is behind it.
* `Node.Roomed` — a node that is no higher than the room at its depth allows.

## Main statements

* `Parse.value_height_le` — the height of an expression does not depend on the number of tokens.
* `parse_height` — nor does that of any expression of a program, nor how deep its blocks nest.
-/

namespace Gcode

/-- The levels of nesting that are left at a depth. -/
def Setting.room (s : Setting) (depth : Nat) : Nat := (s.maxDepth - depth).toNat

/-! ## Precedences -/

namespace Keyword

/-- The precedences in order, that of a text which is no operator first. -/
def ranks : List Nat := [0, 1, 2, 4, 5, 6, 7]

theorem precedence_mem_ranks (operator : Text) : precedence operator ∈ ranks := by
  unfold precedence
  cases h : precedences.lookup (Text.upper operator) with
  | none => decide
  | some p =>
    have hranks : ∀ entry ∈ precedences, entry.2 ∈ ranks := by decide
    obtain ⟨before, after, hsplit, -⟩ := List.lookup_eq_some_iff.mp h
    exact hranks (Text.upper operator, p) (by simp [hsplit])

end Keyword

namespace Parse

open Keyword (precedence ranks)
open Node (height)

/-- The number of precedences that are not lower than `least`. -/
def levels (least : Int) : Nat := ranks.countP fun rank : Nat => least ≤ rank

theorem levels_anti {least least' : Int} (h : least ≤ least') : levels least' ≤ levels least := by
  refine List.countP_mono_left fun rank _ hrank => ?_
  rw [decide_eq_true_eq] at hrank ⊢
  exact Int.le_trans h hrank

/-- An operator takes its precedence away from the operators in its right operand. -/
theorem levels_precedence_lt (operator : Text) :
    levels (precedence operator + 1) + 1 ≤ levels (precedence operator) := by
  have hall : ∀ rank ∈ ranks, levels (rank + 1) + 1 ≤ levels rank := by decide
  exact hall _ (Keyword.precedence_mem_ranks operator)

/-! ## Expressions -/

/-- The tree is no higher than `most`, or by one level if no operator is behind it. -/
def Low (most : Nat) (n : Option Node) (rest : List Token) : Prop :=
  height n ≤ most ∨ height n ≤ most + 1 ∧ NoOperatorAhead rest

theorem Low.mono {most most' : Nat} {n : Option Node} {rest : List Token} (h : Low most n rest)
    (hle : most ≤ most') : Low most' n rest := by
  rcases h with h | ⟨h, hno⟩
  · exact .inl (Nat.le_trans h hle)
  · exact .inr ⟨Nat.le_trans h (Nat.succ_le_succ hle), hno⟩

theorem Low.height_le {most : Nat} {n : Option Node} {rest : List Token} (h : Low most n rest) :
    height n ≤ most + 1 := by
  rcases h with h | ⟨h, -⟩
  · exact Nat.le_succ_of_le h
  · exact h

/-- If there is an operator at hand, the level for one beyond the limit is not used up. -/
theorem Low.height_le_of_operator {most : Nat} {n : Option Node} {t : Token} {rest : List Token}
    (h : Low most n (t :: rest)) (ht : isOperator t = true) : height n ≤ most := by
  rcases h with h | ⟨-, hno⟩
  · exact h
  · rw [hno t rfl] at ht
    cases ht

variable (s : Setting)

mutual

/-- The height of an expression is bounded by the room for it, however many tokens there are. -/
theorem value_height_le (depth : Nat) (ahead : List Token) :
    height (value s depth ahead).value ≤ 10 * s.room depth + 10 := by
  have hoperand := operand_height_le depth ahead
  have hlevels : levels 0 = 7 := by decide
  rw [value]
  exact (chain_low depth (operand s depth ahead).value 0 (10 * s.room depth + 9)
    (operand s depth ahead).rest (by omega) (.inl (by omega))).height_le
termination_by (ahead.length, 4)
decreasing_by
  · exact Prod.Lex.right _ (by omega)
  · exact Prod.Lex.right' _ (Parsed.length_rest_le _) (by omega)

theorem chain_low (depth : Nat) (left : Option Node) (least : Int) (most : Nat)
    (ahead : List Token) (hmost : 10 * s.room depth + 2 + levels least ≤ most)
    (hl : Low most left ahead) :
    Low most (chain s depth left (height left) least ahead).value
      (chain s depth left (height left) least ahead).rest := by
  match ahead with
  | [] =>
    rw [chain]
    exact hl
  | t :: rest =>
    rw [chain]
    by_cases hb : binds t least = true
    · rw [if_pos hb]
      rw [binds, Bool.and_eq_true, decide_eq_true_eq] at hb
      exact link_low depth t left least most rest hb.2 hmost (hl.height_le_of_operator hb.1)
    · rw [if_neg hb]
      exact hl
termination_by (ahead.length, 3)
decreasing_by exact Prod.Lex.left _ _ (by simp)

/-- An operator within the limit is above operands that the room bounds, and above what binds
tighter in its right operand. One beyond the limit is the last. -/
theorem link_low (depth : Nat) (t : Token) (left : Option Node) (least : Int) (most : Nat)
    (ahead : List Token) (ht : least ≤ precedence t.value)
    (hmost : 10 * s.room depth + 2 + levels least ≤ most) (hl : height left ≤ most) :
    Low most (link s depth t left (height left) least ahead).value
      (link s depth t left (height left) least ahead).rest := by
  have hlevels := levels_precedence_lt t.value
  have hleast := levels_anti ht
  rw [link]
  by_cases hd : s.maxDepth ≤ depth + height left
  · rw [if_pos hd]
    refine .inr ⟨?_, cutOffText_stops 0 ahead⟩
    have htext : height (some (cutOff s [] ahead).value) = 1 := Node.height_leaf rfl
    dsimp only [Parsed.map, Parsed.withReport]
    rw [Node.height_binary, htext]
    omega
  · rw [if_neg hd]
    have hfirst := operand_height_le depth ahead
    have hright := tighten_low depth (operand s depth ahead).value (precedence t.value)
      (10 * s.room depth + 2 + levels (precedence t.value + 1)) (operand s depth ahead).rest
      (Nat.le_refl _) (.inl (by omega))
    dsimp only
    generalize hr : tighten s depth (operand s depth ahead).value (precedence t.value)
      (operand s depth ahead).rest = right at hright
    have hroot := Node.height_binary t.value left right.value
    have hroom : height left < s.room depth := by
      unfold Setting.room
      omega
    have hlow : Low most (some (.binary t.value left right.value)) right.rest := by
      rcases hright with hright | ⟨hright, hno⟩
      · exact .inl (by omega)
      · exact .inr ⟨by omega, hno⟩
    have key := chain_low depth (some (.binary t.value left right.value)) least most right.rest
      hmost hlow
    rw [hroot] at key
    exact key
termination_by (ahead.length, 5)
decreasing_by
  · exact Prod.Lex.right _ (by omega)
  · exact Prod.Lex.right' _ (Parsed.length_rest_le _) (by omega)
  · refine Prod.Lex.right' _ ?_ (by omega)
    exact Nat.le_trans (Parsed.length_rest_le _) (Parsed.length_rest_le _)

theorem tighten_low (depth : Nat) (right : Option Node) (bound : Int) (most : Nat)
    (ahead : List Token) (hmost : 10 * s.room depth + 2 + levels (bound + 1) ≤ most)
    (hr : Low most right ahead) :
    Low most (tighten s depth right bound ahead).value
      (tighten s depth right bound ahead).rest := by
  match ahead with
  | [] =>
    rw [tighten]
    exact hr
  | t :: rest =>
    rw [tighten]
    by_cases hb : (isOperator t && bound < (precedence t.value : Int)) = true
    · rw [if_pos hb]
      rw [Bool.and_eq_true, decide_eq_true_eq] at hb
      have hlevels := levels_anti (Int.add_one_le_of_lt hb.2)
      have htighter := link_low depth t right (precedence t.value) most rest (Int.le_refl _)
        (by omega) (hr.height_le_of_operator hb.1)
      exact tighten_low depth _ bound most _ hmost htighter
    · rw [if_neg hb]
      exact hr
termination_by (ahead.length, 3)
decreasing_by
  · exact Prod.Lex.left _ _ (by simp)
  · refine Prod.Lex.left _ _ ?_
    exact Nat.lt_succ_of_le (Parsed.length_rest_le _)

/-- A level of room is spent on each sign. -/
theorem operand_height_le (depth : Nat) (ahead : List Token) :
    height (operand s depth ahead).value ≤ 10 * s.room depth + 2 := by
  rw [operand]
  dsimp only
  split
  · dsimp only [Parsed.behind, Parsed.map]
    rw [height_withSigns, Node.height_leaf rfl, List.length_take]
    unfold Setting.room
    omega
  case isFalse hroom =>
    have hprimary := primary_height_le (depth + (signs ahead).value.length) (signs ahead).rest
    dsimp only [Parsed.behind, Parsed.map]
    rw [height_withSigns]
    unfold Setting.room at hprimary ⊢
    omega
termination_by (ahead.length, 2)
decreasing_by exact Prod.Lex.right' _ (Parsed.length_rest_le _) (by omega)

theorem primary_height_le (depth : Nat) (ahead : List Token) :
    height (primary s depth ahead).value ≤ 10 * s.room depth + 2 := by
  have hleaf : ∀ n : Node, n.operands = [] → height (some n) ≤ 10 * s.room depth + 2 :=
    fun n hn => by
      rw [Node.height_leaf hn]
      omega
  have hchild : ∀ n : Node, n.operands = [none] → height (some n) ≤ 10 * s.room depth + 2 :=
    fun n hn => by
      rw [Node.height_eq_of_operands hn, Node.height_none]
      omega
  match ahead with
  | [] =>
    rw [primary]
    dsimp only [Parsed.reporting]
    rw [Node.height_none]
    omega
  | t :: rest =>
    unfold primary
    split
    case h_1 => exact hleaf _ rfl
    case h_2 => exact hleaf _ rfl
    case h_3 => exact Nat.le_succ_of_le (opened_height_le depth t rest)
    case h_4 =>
      cases hr : rest with
      | nil => exact hchild _ rfl
      | cons u more =>
        dsimp only
        split
        · have hopened := opened_height_le depth u more
          dsimp only [Parsed.behindToken, Parsed.map]
          rw [Node.height_eq_of_operands rfl]
          omega
        · exact hchild _ rfl
    case h_5 => exact hchild _ rfl
    case h_6 =>
      dsimp only [Parsed.reporting]
      rw [Node.height_none]
      omega
termination_by (ahead.length, 1)
decreasing_by
  · exact Prod.Lex.right _ (by omega)
  · exact Prod.Lex.left _ _ (by simp)

/-- A level of room is spent on a bracket. -/
theorem opened_height_le (depth : Nat) (t : Token) (rest : List Token) :
    height (some (opened s depth t rest).value) ≤ 10 * s.room depth + 1 := by
  rw [opened]
  split
  · rw [Node.height_leaf rfl]
    omega
  case isFalse hd =>
    have hinner := value_height_le (depth + 1) rest
    rw [enclosed]
    dsimp only [Parsed.behind, Parsed.behindToken, Parsed.map]
    rw [Node.height_eq_of_operands rfl]
    unfold Setting.room at hinner ⊢
    omega
termination_by (rest.length + 1, 0)
decreasing_by exact Prod.Lex.left _ _ (by simp)

end

/-- An expression in brackets, if there is one, is as high as one that is opened. -/
theorem optionalBracket_height_le (depth : Nat) (ahead : List Token) :
    height (optionalBracket s depth ahead).value ≤ 10 * s.room depth + 1 := by
  refine optionalBracket_holds (P := fun n => height n ≤ 10 * s.room depth + 1) s ?_
    (opened_height_le s depth) ahead
  rw [Node.height_none]
  omega

end Parse

/-! ## Statements -/

/-- Nothing is in an expression but expressions. -/
theorem Reading.Expression.ofOperands {cut : Prop} {n : Option Node} {ahead rest : List Token}
    (h : Reading.Expression cut n ahead rest) : Node.OfOperands n := by
  induction h with
  | missing => exact .missing
  | number | parameter | cutOff => exact .leaf rfl rfl
  | word _ _ ih | call _ _ ih | unary _ _ ih | closed _ _ _ ih | unclosed _ _ _ ih =>
    exact .around rfl rfl ih
  | binary _ _ _ ihl ihr => exact .binary _ ihl ihr

/-- Around the node there is room for its height, and for one more block if it is one. -/
structure Node.Roomed (maxDepth : Int) (blocks : Nat) (m : Node) : Prop where
  lt_of_block : ∀ k h b c, m = .block k h b c → (blocks : Int) < maxDepth
  height_le : height (some m) ≤ 10 * (maxDepth - blocks).toNat + 11

/-- Deeper inside there is less room. -/
theorem Node.Roomed.shallower {maxDepth : Int} {blocks : Nat} {m : Node}
    (h : m.Roomed maxDepth (blocks + 1)) : m.Roomed maxDepth blocks where
  lt_of_block k head body closing hm := by
    have hlt := h.lt_of_block k head body closing hm
    omega
  height_le := Nat.le_trans h.height_le (by omega)

/-- An expression that is not too high leaves room everywhere in it. -/
theorem Node.OfOperands.roomed {n : Option Node} (h : OfOperands n) {maxDepth : Int} {depth : Nat}
    (hheight : height n ≤ 10 * (maxDepth - depth).toNat + 11) :
    EveryAt (Roomed maxDepth) depth n := by
  rintro root rfl blocks m hm
  obtain rfl := h.eq_zero_of_beneath hm
  have hchildren := h root rfl m hm.inside
  exact ⟨fun k head body closing hm => absurd hm (ne_block_of_children_eq hchildren _ _ _ _),
    Nat.le_trans (h.height_le hm.inside) hheight⟩

/-- There is room for all expressions and commands that are read. -/
theorem Parse.elements_roomed (s : Setting) :
    Elements s (Node.EveryAt (Node.Roomed s.maxDepth)) := by
  have hvalue : ∀ depth ahead, Node.OfOperands (value s depth ahead).value := fun depth ahead =>
    (@value_reads s True depth ahead fun _ => trivial).ofOperands
  have hbracket : ∀ depth ahead, Node.OfOperands (optionalBracket s depth ahead).value :=
    fun depth ahead => (@optionalBracket_reads s True depth ahead fun _ => trivial).ofOperands
  refine
    { missing := fun _ => Node.everyAt_none
      value := fun depth ahead =>
        (hvalue depth ahead).roomed (Nat.le_succ_of_le (value_height_le s depth ahead))
      bracket := fun depth ahead => (hbracket depth ahead).roomed
        (Nat.le_trans (optionalBracket_height_le s depth ahead) (Nat.add_le_add_left (by decide) _))
      word := fun depth ahead => ?_
      call := fun depth ahead => ?_ }
  · have hheight := value_height_le s depth (advance s ahead).rest
    unfold wordWithValue
    dsimp only [Parsed.behind, Parsed.map]
    split
    · refine Node.OfOperands.roomed (.around rfl rfl (hvalue depth (advance s ahead).rest)) ?_
      rw [Node.height_eq_of_operands rfl]
      unfold Setting.room at hheight
      omega
    · refine Node.OfOperands.roomed (.around rfl rfl .missing) ?_
      rw [Node.height_eq_of_operands rfl]
      dsimp only [Parsed.pure]
      rw [Node.height_none]
      omega
  · have hheight := optionalBracket_height_le s depth (advance s ahead).rest
    refine Node.OfOperands.roomed (.around rfl rfl (hbracket depth (advance s ahead).rest)) ?_
    rw [Node.height_eq_of_operands rfl]
    dsimp only [Parsed.behind]
    unfold Setting.room at hheight
    omega

/-- The height of a program does not depend on the number of its tokens. Blocks nest no deeper than
the limit on nesting, and no expression or command is higher than ten levels for each level of
nesting that the blocks around it leave, and eleven more. -/
theorem parse_height (tokens : List Token) (limits : Limits) :
    ∃ program reports, parse tokens limits = .ok (program, reports) ∧
      ∀ m blocks, Node.Beneath m blocks program.node →
        (∀ keyword head body closing, m = .block keyword head body closing →
          (blocks + 1 : Int) ≤ max limits.maxDepth 0) ∧
        (Node.height (some m) : Int) ≤ 10 * max (limits.maxDepth - blocks) 0 + 11 := by
  have hE : ∀ s : Setting, s.maxDepth = limits.maxDepth →
      Parse.Elements s (Node.EveryAt (Node.Roomed limits.maxDepth)) :=
    fun s hs => hs ▸ Parse.elements_roomed s
  have hplain : ∀ depth n, Parse.Plain n → Node.Roomed limits.maxDepth depth n := by
    rintro depth n ⟨hn, hblock⟩
    refine ⟨fun k h b c heq => absurd heq (hblock k h b c), ?_⟩
    rw [Node.height_leaf hn]
    omega
  obtain ⟨program, reports, hparse, hroomed⟩ := exists_parse_everyAt hE hplain
    (fun {s depth k h b c} hs hgrown => by
      refine ⟨fun _ _ _ _ _ => ?_, ?_⟩
      · cases hgrown with
        | block hd _ _ _ _ _ => exact hs ▸ hd
      · rw [Node.height_leaf rfl]
        omega) fun _ _ h => h.shallower
  refine ⟨program, reports, hparse, fun m blocks hm => ?_⟩
  have hm' := hroomed _ rfl blocks m hm
  rw [Nat.zero_add] at hm'
  refine ⟨fun k h b c hblock => ?_, ?_⟩
  · have hlt := hm'.lt_of_block k h b c hblock
    omega
  · have hheight := hm'.height_le
    omega

end Gcode
