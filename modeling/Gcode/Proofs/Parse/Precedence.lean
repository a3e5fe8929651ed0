import Gcode.Proofs.Node.Ranked
import Gcode.Proofs.Parse.Grown

/-!
# Every tree of operators is ranked

An operator joins the operand that was read before it. That operand may have an operator at its
root, but none that binds looser: this is what carries the proof from one operator to the next.
The operand behind the operator is tightened first, after which neither its root binds as loose as
the operator nor the next operator any tighter.

## Main definitions

* `Parse.Fits` — an operand may be joined by the operator at hand.
* `Parse.Looser` — the operator at hand binds looser than a bound.
* `Parse.RankedOperand` — what is known of an operand.
* `Parse.Climbed` — what is known of a tree once no operator at hand is left for it.

## Main statements

* `Parse.value_climbed` — an expression is ranked, and no operator is behind it.
-/

namespace Gcode.Parse

open Keyword (precedence)
open Node (BindsAtLeast Every NoOperator Ranked)

variable (s : Setting)

/-- No operator is at hand. -/
def NoOperatorAhead (ahead : List Token) : Prop := ∀ t ∈ ahead.head?, isOperator t = false

/-- If there is an operator at hand, that at the root of the operand binds at least as tight. -/
def Fits (left : Option Node) (ahead : List Token) : Prop :=
  ∀ t ∈ ahead.head?, isOperator t = true → BindsAtLeast (precedence t.value) left

/-- If there is an operator at hand, it binds looser than `least`. -/
def Looser (least : Int) (ahead : List Token) : Prop :=
  ∀ t ∈ ahead.head?, isOperator t = true → (precedence t.value : Int) < least

/-- A ranked tree with no operator at its root that binds looser than `least`, behind which there
is no operator that does not. -/
structure Climbed (least : Int) (tree : Option Node) (rest : List Token) : Prop where
  ranked : Every Ranked tree
  atLeast : BindsAtLeast least tree
  looser : Looser least rest

variable {s}

theorem Fits.of_noOperator {left : Option Node} (h : NoOperator left) (ahead : List Token) :
    Fits left ahead := fun _ _ _ => h.bindsAtLeast _

/-- An operator that binds no tighter than the root may join the tree. -/
theorem Looser.fits {bound : Int} {left : Option Node} {ahead : List Token}
    (h : Looser (bound + 1) ahead) (hleft : BindsAtLeast bound left) : Fits left ahead :=
  fun t ht ho => hleft.mono (Int.lt_add_one_iff.mp (h t ht ho))

theorem Looser.mono {least least' : Int} {ahead : List Token} (h : Looser least ahead)
    (hle : least ≤ least') : Looser least' ahead :=
  fun t ht ho => Int.lt_of_lt_of_le (h t ht ho) hle

theorem NoOperatorAhead.looser {ahead : List Token} (h : NoOperatorAhead ahead) (least : Int) :
    Looser least ahead := by
  intro t ht ho
  rw [h t ht] at ho
  cases ho

/-- The lowest precedence is 0. -/
theorem Looser.noOperatorAhead {ahead : List Token} (h : Looser 0 ahead) :
    NoOperatorAhead ahead := by
  intro t ht
  rw [← Bool.not_eq_true]
  intro ho
  have hlt := h t ht ho
  omega

/-- Text that is cut off ends before anything that could end a line of commands, a comment or a
bracket, none of which is an operator. -/
theorem cutOffText_stops (level : Nat) (ahead : List Token) :
    NoOperatorAhead (cutOffText s level ahead).rest := by
  induction ahead generalizing level with
  | nil => simp [cutOffText, Parsed.pure, NoOperatorAhead]
  | cons t rest ih =>
    unfold cutOffText
    split
    case isTrue h =>
      intro u hu
      obtain rfl : t = u := Option.some.inj hu
      rw [← Bool.not_eq_true]
      intro ho
      simp only [isOperator, Bool.or_eq_true, decide_eq_true_eq] at ho
      rcases ho with (ho | ho) | ho <;> simp [endsCommands, isOWord, startsAssignment, ho] at h
    case isFalse => exact ih _

/-- An operator and its operands. -/
theorem every_ranked_join {t : Token} {left right : Option Node} (hl : Every Ranked left)
    (hr : Every Ranked right) (hleft : BindsAtLeast (precedence t.value) left)
    (hright : BindsAtLeast (precedence t.value + 1) right) :
    Every Ranked (some (.binary t.value left right)) :=
  Node.every_ranked_binary.mpr ⟨⟨hleft, hright⟩, hl, hr⟩

/-- An operand: a tree with no operator at its root that is ranked within its brackets. -/
structure RankedOperand (n : Option Node) : Prop where
  noOperator : NoOperator n
  ranked : Every Ranked n

namespace RankedOperand

theorem missing : RankedOperand none := ⟨by simp [NoOperator], Node.every_none⟩

theorem leaf {n : Node} (h : NoOperator (some n)) (hchildren : n.children = []) :
    RankedOperand (some n) := by
  refine ⟨h, Node.every_some_iff.mpr ⟨h.ranked, ?_⟩⟩
  rw [hchildren]
  exact List.forall_mem_nil _

/-- A node with one child that is no operator. -/
theorem around {n : Node} {child : Option Node} (h : NoOperator (some n))
    (hchildren : n.children = [child]) (hc : Every Ranked child) : RankedOperand (some n) := by
  refine ⟨h, Node.every_some_iff.mpr ⟨h.ranked, ?_⟩⟩
  rw [hchildren]
  exact List.forall_mem_singleton.mpr hc

theorem unknown (text : Text) (line : Int) : RankedOperand (some (.unknown text line)) :=
  leaf (by simp [NoOperator]) rfl

theorem call {argument : Option Node} (name : Text) (h : Every Ranked argument) :
    RankedOperand (some (.call name argument)) := around (by simp [NoOperator]) rfl h

theorem word {value : Option Node} (letter : Text) (h : Every Ranked value) :
    RankedOperand (some (.word letter value)) := around (by simp [NoOperator]) rfl h

theorem withSigns {operand : Option Node} (h : RankedOperand operand) (signs : List Text) :
    RankedOperand (Parse.withSigns signs operand) := by
  induction signs with
  | nil => exact h
  | cons sign signs ih =>
    have hno : NoOperator (some (.unary sign (Parse.withSigns signs operand))) := by
      simp [NoOperator]
    exact around hno rfl ih.ranked

end RankedOperand

variable (s)

mutual

/-- An expression is ranked, and no operator is behind it. -/
theorem value_climbed (depth : Nat) (ahead : List Token) :
    Climbed 0 (value s depth ahead).value (value s depth ahead).rest := by
  rw [value]
  have hleft := operand_ranked depth ahead
  exact chain_climbed depth (Node.height (operand s depth ahead).value) 0 hleft.ranked
    (hleft.noOperator.bindsAtLeast 0) (.of_noOperator hleft.noOperator (operand s depth ahead).rest)
termination_by (ahead.length, 4)
decreasing_by
  · exact Prod.Lex.right _ (by omega)
  · exact Prod.Lex.right' _ (Parsed.length_rest_le _) (by omega)

/-- The operators behind an operand are served until one is at hand that binds looser. -/
theorem chain_climbed (depth : Nat) {left : Option Node} (height : Nat) (least : Int)
    {ahead : List Token} (hl : Every Ranked left) (hleast : BindsAtLeast least left)
    (hfits : Fits left ahead) :
    Climbed least (chain s depth left height least ahead).value
      (chain s depth left height least ahead).rest := by
  match ahead with
  | [] =>
    rw [chain]
    exact ⟨hl, hleast, by simp [Looser, Parsed.pure]⟩
  | t :: rest =>
    rw [chain]
    by_cases hb : binds t least = true
    · rw [if_pos hb]
      rw [binds, Bool.and_eq_true, decide_eq_true_eq] at hb
      exact link_climbed depth height least hb.2 rest hl (hfits t rfl hb.1)
    · rw [if_neg hb]
      refine ⟨hl, hleast, ?_⟩
      rintro u ⟨⟩ ho
      rw [binds, ho, Bool.true_and, decide_eq_true_eq] at hb
      exact Int.not_le.mp hb
termination_by (ahead.length, 3)
decreasing_by exact Prod.Lex.left _ _ (by simp)

/-- The operator `t` and those behind it are served until one is at hand that binds looser. -/
theorem link_climbed (depth : Nat) {t : Token} {left : Option Node} (height : Nat) (least : Int)
    (ht : least ≤ precedence t.value) (ahead : List Token) (hl : Every Ranked left)
    (hleft : BindsAtLeast (precedence t.value) left) :
    Climbed least (link s depth t left height least ahead).value
      (link s depth t left height least ahead).rest := by
  have hroot : ∀ right, BindsAtLeast least (some (.binary t.value left right)) := by
    rintro right _ _ _ ⟨⟩
    exact ht
  rw [link]
  by_cases hd : s.maxDepth ≤ depth + height
  · rw [if_pos hd]
    have htext := RankedOperand.unknown (cutOffText s 0 ahead).value (current s ahead).line
    exact ⟨every_ranked_join hl htext.ranked hleft (htext.noOperator.bindsAtLeast _), hroot _,
      (cutOffText_stops 0 ahead).looser least⟩
  · rw [if_neg hd]
    have hfirst := operand_ranked depth ahead
    have hright := tighten_climbed depth (precedence t.value) hfirst.ranked
      (hfirst.noOperator.bindsAtLeast _)
      (.of_noOperator hfirst.noOperator (operand s depth ahead).rest)
    refine chain_climbed depth _ least (every_ranked_join hl hright.ranked hleft hright.atLeast)
      (hroot _) (hright.looser.fits ?_)
    rintro _ _ _ ⟨⟩
    exact Int.le_refl _
termination_by (ahead.length, 5)
decreasing_by
  · exact Prod.Lex.right _ (by omega)
  · exact Prod.Lex.right' _ (Parsed.length_rest_le _) (by omega)
  · refine Prod.Lex.right' _ ?_ (by omega)
    exact Nat.le_trans (Parsed.length_rest_le _) (Parsed.length_rest_le _)

/-- The operators behind an operand that bind tighter than `bound` are served. Each of them binds
looser than the one before it, so that it fits the tree of that one. -/
theorem tighten_climbed (depth : Nat) {right : Option Node} (bound : Int) {ahead : List Token}
    (hr : Every Ranked right) (hbound : BindsAtLeast (bound + 1) right)
    (hfits : Fits right ahead) :
    Climbed (bound + 1) (tighten s depth right bound ahead).value
      (tighten s depth right bound ahead).rest := by
  match ahead with
  | [] =>
    rw [tighten]
    exact ⟨hr, hbound, by simp [Looser, Parsed.pure]⟩
  | t :: rest =>
    rw [tighten]
    by_cases hb : (isOperator t && bound < (precedence t.value : Int)) = true
    · rw [if_pos hb]
      rw [Bool.and_eq_true, decide_eq_true_eq] at hb
      have htighter := link_climbed depth (Node.height right) (precedence t.value)
        (Int.le_refl _) rest hr (hfits t rfl hb.1)
      exact tighten_climbed depth bound htighter.ranked (htighter.atLeast.mono hb.2)
        ((htighter.looser.mono (by omega)).fits htighter.atLeast)
    · rw [if_neg hb]
      refine ⟨hr, hbound, ?_⟩
      rintro u ⟨⟩ ho
      rw [ho, Bool.true_and, decide_eq_true_eq] at hb
      exact Int.lt_add_one_iff.mpr (Int.not_lt.mp hb)
termination_by (ahead.length, 3)
decreasing_by
  · exact Prod.Lex.left _ _ (by simp)
  · refine Prod.Lex.left _ _ ?_
    exact Nat.lt_succ_of_le (Parsed.length_rest_le _)

theorem operand_ranked (depth : Nat) (ahead : List Token) :
    RankedOperand (operand s depth ahead).value := by
  rw [operand]
  dsimp only
  split
  · exact (RankedOperand.unknown _ _).withSigns _
  · exact (primary_ranked (depth + (signs ahead).value.length) (signs ahead).rest).withSigns _
termination_by (ahead.length, 2)
decreasing_by exact Prod.Lex.right' _ (Parsed.length_rest_le _) (by omega)

theorem primary_ranked (depth : Nat) (ahead : List Token) :
    RankedOperand (primary s depth ahead).value := by
  match ahead with
  | [] =>
    rw [primary]
    exact .missing
  | t :: rest =>
    unfold primary
    split
    case h_1 => exact .leaf (by simp [NoOperator]) rfl
    case h_2 => exact .leaf (by simp [NoOperator]) rfl
    case h_3 => exact opened_ranked depth t rest
    case h_4 =>
      cases hr : rest with
      | nil => exact .call t.value Node.every_none
      | cons u more =>
        dsimp only
        split
        · exact .call t.value (opened_ranked depth u more).ranked
        · exact .call t.value Node.every_none
    case h_5 => exact .word t.value Node.every_none
    case h_6 => exact .missing
termination_by (ahead.length, 1)
decreasing_by
  · exact Prod.Lex.right _ (by omega)
  · exact Prod.Lex.left _ _ (by simp)

theorem opened_ranked (depth : Nat) (t : Token) (rest : List Token) :
    RankedOperand (some (opened s depth t rest).value) := by
  rw [opened]
  split
  · exact .unknown _ _
  · exact enclosed_ranked depth rest
termination_by (rest.length + 1, 0)
decreasing_by exact Prod.Lex.left _ _ (by simp)

theorem enclosed_ranked (depth : Nat) (ahead : List Token) :
    RankedOperand (some (enclosed s depth ahead).value) := by
  rw [enclosed]
  exact .around (by simp [NoOperator, Parsed.map]) rfl (value_climbed (depth + 1) ahead).ranked
termination_by (ahead.length, 5)
decreasing_by exact Prod.Lex.right _ (by omega)

end

/-- An expression in brackets is ranked. -/
theorem optionalBracket_ranked (depth : Nat) (ahead : List Token) :
    Every Ranked (optionalBracket s depth ahead).value :=
  optionalBracket_holds s Node.every_none (fun t rest => (opened_ranked s depth t rest).ranked)
    ahead

/-- All expressions that are read are ranked. -/
theorem expressions_ranked : Expressions s fun _ => Every Ranked where
  missing _ := Node.every_none
  value depth ahead := (value_climbed s depth ahead).ranked
  bracket := optionalBracket_ranked s
  word h := (RankedOperand.word _ h).ranked
  call h := (RankedOperand.call _ h).ranked

end Gcode.Parse
