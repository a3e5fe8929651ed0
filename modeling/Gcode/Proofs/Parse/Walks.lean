import Gcode.Layout.Expression
import Gcode.Node.Label
import Gcode.Proofs.Parse.Evaluated
import Mathlib.Logic.Relation

/-!
# Loops in place of recursion

Chains of signs and of operators may be long, so trees are walked in loops. The height of a tree is
found with a stack of what is still to be visited, and its text along spines that are put together
from the inside out. The loop over the operators behind an operand measures the operand once, and
from then on keeps the height of the tree that it builds without measuring that again. What the
loops find is what a recursion on the tree finds.

The text of a tree may be refused. The refusal is a part of what is compared: it is that of the node
which the recursion from left to right comes upon first.

## Main definitions

* `Node.OneLevel` — trees are written one level at a time.
* `Climb` — the loop over the operators behind an operand, before one of its turns.
* `Climb.Turn`, `Climb.Ends` — a turn of the loop, and its end.
* `Climbs` — the loop, turn by turn, from an operand to the tree that it is extended to.

## Main statements

* `Style.oneLevel` — walking along spines writes trees one level at a time.
* `Climb.Turns.measured` — the height that the loop keeps is that of its tree, before every turn.
* `evaluates_chain_iff` — the turns of the loop are those by which expressions are read.
* `walks_eq_recursion` — every walk finds what recursion finds.
-/

namespace Gcode

open Keyword (precedence)
open Node (height longestPath?)
open Parse (binds)

/-! ## Trees -/

/-- A tree is one level higher than the highest of the operands of its root. -/
theorem Node.height_some (n : Node) :
    height (some n) = 1 + (n.operands.map height).foldr max 0 := by
  rw [show height = longestPath? from funext height_eq_longestPath?, longestPath?]
  cases n <;> simp [longestPath, operands]

/-- Trees are written one level at a time: a sign is put in front of the text of its operand, and
the texts of the operands of an operator are joined by `link`. If both of them are refused, the
refusal is that of the left one. -/
structure Node.OneLevel {ε : Type} (write : Option Node → Except ε Text)
    (link : Text → Text → Text → Text) : Prop where
  missing : write none = .ok []
  unary (operator : Text) (operand : Option Node) :
    write (some (.unary operator operand)) = (write operand).map (operator ++ ·)
  binary (operator : Text) (left right : Option Node) :
    write (some (.binary operator left right)) =
      (write left).bind fun first => (write right).map (link first operator ·)

theorem Style.oneLevel {ε : Type} (style : Style ε) : Node.OneLevel style.text style.link where
  missing := by rw [text_eq_plainText?, plainText?]
  unary operator operand := by simp only [text_eq_plainText?, plainText?, plainText]
  binary operator left right := by simp only [text_eq_plainText?, plainText?, plainText]

/-! ## The loop over operators -/

/-- The loop over the operators behind an operand, before a turn: the tree so far, the height that
is kept of it, and the session. -/
structure Climb where
  tree : Option Node
  size : Nat
  session : Session

namespace Climb

/-- The loop as it is entered. This is the one place where its tree is measured. -/
def start (tree : Option Node) (σ : Session) : Climb := ⟨tree, height tree, σ⟩

/-- A turn of the loop, in which an operator within the limit joins the tree to the operand behind
it. Of the new tree only the right operand is measured. -/
inductive Turn (least : Int) : Climb → Climb → Prop
  | link {tree first right : Option Node} {size : Nat} {σ τ υ : Session} :
    binds σ.current least = true → ¬σ.limits.maxDepth ≤ σ.depth + size →
    Evaluates .operand σ.step first τ →
    Evaluates (.tighten first (precedence σ.current.value)) τ right υ →
    Turn least ⟨tree, size, σ⟩
      ⟨some (.binary σ.current.value tree right), 1 + max size (height right), υ⟩

/-- The loop ends here: no operator at hand binds, or the one that does is beyond the limit. -/
inductive Ends (least : Int) : Climb → Option Node → Session → Prop
  | loose {tree : Option Node} {size : Nat} {σ : Session} : binds σ.current least = false →
    Ends least ⟨tree, size, σ⟩ tree σ
  | deep {tree n : Option Node} {size : Nat} {σ τ : Session} : binds σ.current least = true →
    σ.limits.maxDepth ≤ σ.depth + size →
    Evaluates (.cutOff [])
      (σ.step.report ⟨.deepChain σ.limits.maxDepth, σ.step.current.line⟩) n τ →
    Ends least ⟨tree, size, σ⟩ (some (.binary σ.current.value tree n)) τ

/-- Turns of the loop, one after the other. -/
def Turns (least : Int) : Climb → Climb → Prop := Relation.ReflTransGen (Turn least)

/-- The height that is kept is that of the tree. -/
def Measured (c : Climb) : Prop := c.size = height c.tree

variable {least : Int} {c d : Climb} {n : Option Node} {τ : Session}

theorem measured_start (tree : Option Node) (σ : Session) : (start tree σ).Measured := rfl

theorem Turn.measured (h : Turn least c d) (hc : c.Measured) : d.Measured := by
  cases h with
  | @link tree _ _ size =>
    have hsize : size = height tree := hc
    rw [Measured, Node.height_binary, hsize]

theorem Turns.measured (h : Turns least c d) (hc : c.Measured) : d.Measured := by
  induction h with
  | refl => exact hc
  | tail _ hturn ih => exact hturn.measured ih

/-! ## The turns and the rules -/

theorem Ends.evaluates (h : c.Ends least n τ) :
    Evaluates (.chain c.tree c.size least) c.session n τ := by
  cases h with
  | loose hbinds => exact .chainEnd hbinds
  | deep hbinds hdepth hrest => exact .deepLink hbinds hdepth hrest

theorem Turns.evaluates (h : Turns least c d) (hends : d.Ends least n τ) :
    Evaluates (.chain c.tree c.size least) c.session n τ := by
  induction h using Relation.ReflTransGen.head_induction_on with
  | refl => exact hends.evaluates
  | head hturn _ ih =>
    cases hturn with
    | link hbinds hdepth hfirst hright => exact .link hbinds hdepth hfirst hright ih

end Climb

open Climb (Ends Turn Turns)

theorem Evaluates.exists_turns {tree n : Option Node} {size : Nat} {least : Int} {σ τ : Session}
    (h : Evaluates (.chain tree size least) σ n τ) :
    ∃ c, Turns least ⟨tree, size, σ⟩ c ∧ c.Ends least n τ := by
  -- The rules for anything else than the loop drop out; `least` stays the same along the run.
  generalize hask : Asked.chain tree size least = a at h
  induction h generalizing tree size with
  | chainEnd hbinds =>
    cases hask
    exact ⟨_, .refl, .loose hbinds⟩
  | deepLink hbinds hdepth hrest =>
    cases hask
    exact ⟨_, .refl, .deep hbinds hdepth hrest⟩
  | link hbinds hdepth hfirst hright _ _ _ ih =>
    cases hask
    obtain ⟨c, hturns, hends⟩ := ih rfl
    exact ⟨c, .head (.link hbinds hdepth hfirst hright) hturns, hends⟩
  | _ => cases hask

/-- The operators behind an operand are read turn by turn. -/
theorem evaluates_chain_iff {tree n : Option Node} {size : Nat} {least : Int} {σ τ : Session} :
    Evaluates (.chain tree size least) σ n τ ↔
      ∃ c, Turns least ⟨tree, size, σ⟩ c ∧ c.Ends least n τ :=
  ⟨Evaluates.exists_turns, fun ⟨_, hturns, hends⟩ => hturns.evaluates hends⟩

/-- The loop goes from the operand `tree` in `σ` to the tree `n` in `τ`, turn by turn. -/
def Climbs (least : Int) (tree : Option Node) (σ : Session) (n : Option Node) (τ : Session) :
    Prop :=
  ∃ c, Turns least (Climb.start tree σ) c ∧ c.Ends least n τ

/-- An expression is an operand to which the loop adds all the operators behind it. -/
theorem evaluates_value_iff {σ υ : Session} {n : Option Node} :
    Evaluates .value σ n υ ↔ ∃ left τ, Evaluates .operand σ left τ ∧ Climbs 0 left τ n υ := by
  constructor
  · rintro ⟨hleft, hchain⟩
    exact ⟨_, _, hleft, evaluates_chain_iff.mp hchain⟩
  · rintro ⟨left, τ, hleft, hclimbs⟩
    exact .value hleft (evaluates_chain_iff.mpr hclimbs)

/-- An operator that binds tighter begins a loop over those that bind as tight. -/
theorem evaluates_tighten_iff {σ υ : Session} {right n : Option Node} {bound : Int}
    (hbinds : binds σ.current (bound + 1) = true) :
    Evaluates (.tighten right bound) σ n υ ↔ ∃ tighter τ,
      Climbs (precedence σ.current.value) right σ tighter τ ∧
      Evaluates (.tighten tighter bound) τ n υ := by
  constructor
  · intro h
    cases h with
    | tightenEnd hend => exact absurd hbinds (Bool.eq_false_iff.mp hend)
    | tighten _ htighter hmore => exact ⟨_, _, evaluates_chain_iff.mp htighter, hmore⟩
  · rintro ⟨tighter, τ, hclimbs, hmore⟩
    exact .tighten hbinds (evaluates_chain_iff.mpr hclimbs) hmore

/-! ## All walks -/

/-- Every walk finds what recursion finds, on every tree. The height of a tree is the length of its
longest way: 0 if the tree is missing, and else one more than the height of the highest operand of
the root. The text of a label and that of an expression are what is written one level at a time, and
where they are refused it is for the same node. The loop over operators is entered in two places,
behind the first operand of an expression and behind an operand that is tightened. Wherever that
is, and whatever the operand, the height that it keeps is that of its tree before every turn. -/
theorem walks_eq_recursion :
    (∀ n, height n = longestPath? n) ∧
    (height none = 0 ∧ ∀ n : Node, height (some n) = 1 + (n.operands.map height).foldr max 0) ∧
    (∀ n, Node.label n = Node.labelStyle.plainText? n) ∧
    Node.OneLevel Node.label (fun left operator right => "(" ++ left ++ operator ++ right ++ ")") ∧
    (∀ n, Layout.expression n = Layout.style.plainText? n) ∧
    Node.OneLevel Layout.expression (fun left operator right =>
      Text.trim (left ++ " " ++ operator ++ " " ++ right)) ∧
    ∀ σ : Session, σ.InBounds →
      (∀ n υ, σ.answer .value = (n, υ) ↔
        ∃ left τ, Evaluates .operand σ left τ ∧ Climbs 0 left τ n υ) ∧
      (∀ right bound n υ, binds σ.current (bound + 1) = true →
        (σ.answer (.tighten right bound) = (n, υ) ↔ ∃ tighter τ,
          Climbs (precedence σ.current.value) right σ tighter τ ∧
          Evaluates (.tighten tighter bound) τ n υ)) ∧
      ∀ least tree c, Turns least (Climb.start tree σ) c → c.size = height c.tree := by
  refine ⟨Node.height_eq_longestPath?, ⟨Node.height_none, Node.height_some⟩,
    Style.text_eq_plainText? _, Style.oneLevel _, Style.text_eq_plainText? _, Style.oneLevel _,
    fun σ hσ => ⟨?_, ?_, ?_⟩⟩
  · exact fun n υ => (evaluates_iff hσ).symm.trans evaluates_value_iff
  · exact fun right bound n υ hbinds =>
      (evaluates_iff hσ).symm.trans (evaluates_tighten_iff hbinds)
  · exact fun least tree c hturns => hturns.measured (Climb.measured_start tree σ)

/-- A sum whose second operand is a product: the tree of the turn is three levels high. -/
theorem walks_eq_recursion_sum :
    ∃ (σ : Session) (c : Climb), σ.InBounds ∧
      Turns 0 (Climb.start (some (.number "1")) σ) c ∧ c.size = height c.tree ∧
      c.tree = some (.binary "+" (some (.number "1"))
        (some (.binary "*" (some (.number "2")) (some (.number "3"))))) := by
  let plus : Token := ⟨.operator, "+", 1⟩
  let two : Token := ⟨.number, "2", 1⟩
  let times : Token := ⟨.operator, "*", 1⟩
  let three : Token := ⟨.number, "3", 1⟩
  let σ (position : Nat) : Session :=
    ⟨[⟨.number, "1", 1⟩, plus, two, times, three, ⟨.endOfFile, "", 1⟩], {}, position, 0, []⟩
  let product : Node := .binary times.value (some (.number two.value)) (some (.number three.value))
  have hσ : (σ 1).InBounds := show 1 ≤ 5 by decide
  have hleaf (text : Text) : height (some (.number text)) = 1 := Node.height_leaf rfl
  have htwo : Evaluates .operand (σ 2) (some (.number two.value)) (σ 3) :=
    .operand (.stop rfl) (Nat.zero_le _) (.number rfl)
  have hthree : Evaluates .operand (σ 4) (some (.number three.value)) (σ 5) :=
    .operand (.stop rfl) (Nat.zero_le _) (.number rfl)
  have hchain : Evaluates
      (.chain (some (.number two.value)) (height (some (.number two.value)))
        (precedence times.value)) (σ 3) (some product) (σ 5) := by
    rw [hleaf]
    exact .link (σ := σ 3) (τ := σ 5) (υ := σ 5) (by decide) (by decide) hthree
      (.tightenEnd (by decide)) (.chainEnd (by decide))
  have hproduct : Evaluates (.tighten (some (.number two.value)) (precedence plus.value)) (σ 3)
      (some product) (σ 5) :=
    .tighten (by decide) hchain (.tightenEnd (by decide))
  have hturn : Climb.Turn 0 (Climb.start (some (.number "1")) (σ 1)) _ :=
    .link (by decide) (by rw [hleaf]; decide) htwo hproduct
  have hturns : Turns 0 _ _ := .single hturn
  exact ⟨σ 1, _, hσ, hturns, (walks_eq_recursion.2.2.2.2.2.2 (σ 1) hσ).2.2 _ _ _ hturns, rfl⟩

end Gcode
