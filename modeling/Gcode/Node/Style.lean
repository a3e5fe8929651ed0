import Gcode.Node.Spine

/-!
# Styles of writing expressions

Expressions are turned into text for two ends, to compare labels and to print them. Both write
words, calls and signs in front of what belongs to them, and differ in what they do with leaves,
brackets and chains of operators. Such a choice is a style.

## Main definitions

* `Style` — a choice for leaves, brackets and links.
* `Style.text` — the text of an expression, found along spines.
* `Style.plainText` — the text of an expression by recursion on the tree.

## Main statements

* `text_eq_plainText?` — the two agree, also in the refusal that comes first.
-/

namespace Gcode

open Node (Link leftSpine signSpine weight weight_leftSpine sizeOf_signSpine)

/-- How expressions are turned into text. -/
structure Style (ε : Type) where
  /-- A node without operands, or one that is no expression. -/
  leaf : Node → Except ε Text
  /-- Brackets around a text; the flag tells whether the source closes them. -/
  brackets : Text → Bool → Text
  /-- A left operand, an operator and a right operand. -/
  link : Text → Text → Text → Text

namespace Style

variable {ε : Type} (style : Style ε)

mutual

/-- The text of an expression. A missing one has none. -/
def text : Option Node → Except ε Text
  | none => .ok []
  | some (.unary operator operand) =>
    let spine := signSpine operator operand
    (text spine.2).map (spine.1 ++ ·)
  | some (.binary operator left right) =>
    let spine := leftSpine [(operator, right)] left
    (text spine.1).bind fun first => chainText first spine.2
  | some (.bracketed inner closed) => (text inner).map (style.brackets · closed)
  | some (.word letter value) => (text value).map (letter ++ ·)
  | some (.call name argument) => (text argument).map (name ++ ·)
  | some node => style.leaf node
termination_by n => sizeOf n
decreasing_by
  · have := sizeOf_signSpine operator operand
    simp
    omega
  · have := weight_leftSpine [(operator, right)] left
    simp at this ⊢
    omega
  · have := weight_leftSpine [(operator, right)] left
    simp at this ⊢
    omega
  · simp; omega
  · simp; omega
  · simp; omega

/-- The text of a chain of operators, from that of its innermost part and its links. -/
def chainText (first : Text) : List Link → Except ε Text
  | [] => .ok first
  | (operator, right) :: links =>
    (text right).bind fun operand => chainText (style.link first operator operand) links
termination_by links => weight links
decreasing_by all_goals simp; try omega

end

mutual

/-- The text of a node, link by link. -/
def plainText : Node → Except ε Text
  | .unary operator operand => (plainText? operand).map (operator ++ ·)
  | .binary operator left right =>
    (plainText? left).bind fun first => (plainText? right).map (style.link first operator ·)
  | .bracketed inner closed => (plainText? inner).map (style.brackets · closed)
  | .word letter value => (plainText? value).map (letter ++ ·)
  | .call name argument => (plainText? argument).map (name ++ ·)
  | node => style.leaf node

/-- The text of a node that may be missing, link by link. -/
def plainText? : Option Node → Except ε Text
  | none => .ok []
  | some node => plainText node

end

/-! ## Walking along spines and recursion agree -/

theorem plainText?_signSpine (signs : Text) (n : Option Node) :
    (style.plainText? n).map (signs ++ ·) =
      (style.plainText? (signSpine signs n).2).map ((signSpine signs n).1 ++ ·) := by
  fun_induction signSpine signs n with
  | case1 signs operator operand ih =>
    rw [← ih]
    cases h : style.plainText? operand <;> simp [plainText?, plainText, h, Except.map]
  | case2 => rfl

/-- The links of a chain put behind the text of its innermost part, one after the other. -/
def linked (first : Except ε Text) (links : List Link) : Except ε Text :=
  links.foldl (fun text link =>
    text.bind fun text => (style.plainText? link.2).map (style.link text link.1 ·)) first

theorem linked_leftSpine (links : List Link) (n : Option Node) :
    style.linked (style.plainText? n) links =
      style.linked (style.plainText? (leftSpine links n).1) (leftSpine links n).2 := by
  fun_induction leftSpine links n with
  | case1 links operator left right ih =>
    rw [← ih]
    simp [linked, plainText?, plainText]
  | case2 => rfl

theorem linked_error (e : ε) (links : List Link) : style.linked (.error e) links = .error e := by
  induction links with
  | nil => rfl
  | cons link links ih => exact ih

mutual

/-- The text found along spines is that found by recursion. -/
theorem text_eq_plainText? (n : Option Node) : style.text n = style.plainText? n := by
  match n with
  | none => simp [text, plainText?]
  | some (.bracketed inner _) => simp [text, plainText?, plainText, text_eq_plainText? inner]
  | some (.word _ value) => simp [text, plainText?, plainText, text_eq_plainText? value]
  | some (.call _ argument) => simp [text, plainText?, plainText, text_eq_plainText? argument]
  | some (.unary operator operand) =>
    rw [text, text_eq_plainText? (signSpine operator operand).2, ← plainText?_signSpine]
    simp [plainText?, plainText]
  | some (.binary operator left right) =>
    have whole : style.linked (style.plainText? left) [(operator, right)] =
        style.plainText? (some (.binary operator left right)) := by
      simp [linked, plainText?, plainText]
    rw [text, ← whole, linked_leftSpine,
      text_eq_plainText? (leftSpine [(operator, right)] left).1]
    cases style.plainText? (leftSpine [(operator, right)] left).1 with
    | error e => exact (linked_error style e _).symm
    | ok first => exact chainText_eq_linked first _
  | some (.number _) | some (.parameter _) | some (.unknown _ _) | some (.comment _)
  | some (.endOfLine _) | some (.header _ _ _ _) | some (.commandLine _) | some (.oStatement _ _)
  | some (.assignment _ _) | some (.block _ _ _ _) | some (.program _) =>
    simp [text, plainText?, plainText]
termination_by sizeOf n
decreasing_by
  · simp; omega
  · simp; omega
  · simp; omega
  · have := sizeOf_signSpine operator operand
    simp
    omega
  · have := weight_leftSpine [(operator, right)] left
    simp at this ⊢
    omega
  · have := weight_leftSpine [(operator, right)] left
    simp at this ⊢
    omega

theorem chainText_eq_linked (first : Text) (links : List Link) :
    style.chainText first links = style.linked (.ok first) links := by
  match links with
  | [] => simp [chainText, linked]
  | (operator, right) :: links =>
    rw [chainText, text_eq_plainText? right]
    simp only [linked, List.foldl_cons, Except.bind]
    cases style.plainText? right with
    | error e => exact (linked_error style e links).symm
    | ok operand => exact chainText_eq_linked (style.link first operator operand) links
termination_by weight links
decreasing_by all_goals simp; try omega

end

end Style

end Gcode
