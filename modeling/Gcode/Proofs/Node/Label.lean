import Gcode.Node.Label
import Gcode.Proofs.Node.Part
import Gcode.Proofs.Text.Folded
import Gcode.Proofs.Token.Shape

/-!
# The texts of labels

The flat text of a label is that of the tokens it was read from, but for a pair of parentheses
around each operator and its operands. So labels that were read from the same tokens have flat
texts of the same length only if they have as many operators.

## Main definitions

* `Node.operatorCount?` — how many operators with two operands there are in a tree.
* `Node.Written` — a label whose flat text is that of tokens, but for the parentheses.
* `Node.Coarser` — a label with some of the operators of another, or one with the same flat text.

## Main statements

* `Node.Coarser.labelsMatch_iff` — such labels match if none of the operators is missing.
-/

namespace Gcode

namespace Text

theorem length_lowerAfter (cased : Bool) (t : Text) :
    (lowerAfter cased t).length = (t.flatMap lowerOf).length := by
  have hsigma : (lowerOf 'Σ').length = 1 := by decide +kernel
  induction t generalizing cased with
  | nil => rfl
  | cons c t ih =>
    rw [lowerAfter, List.length_append, ih, List.flatMap_cons, List.length_append]
    congr 1
    split
    case isTrue h =>
      simp only [Bool.and_eq_true, decide_eq_true_eq] at h
      rw [h.1.1, hsigma]
      rfl
    case isFalse => rfl

/-- What a text is as long as in lower case does not depend on what stands around it. -/
@[simp] theorem length_lower_append (s t : Text) :
    (lower (s ++ t)).length = (lower s).length + (lower t).length := by
  simp only [lower, length_lowerAfter, List.flatMap_append, List.length_append]

theorem length_lower_eq_of_folded_eq {s t : Text} (h : folded s = folded t) :
    (lower s).length = (lower t).length := congrArg List.length (lower_eq_of_folded_eq h)

end Text

namespace Node

open Token (texts)

/-! ## Operators in a tree -/

mutual

/-- How many operators with two operands there are in an expression. -/
def operatorCount : Node → Nat
  | .binary _ left right => operatorCount? left + operatorCount? right + 1
  | .unary _ operand => operatorCount? operand
  | .bracketed inner _ => operatorCount? inner
  | .word _ value => operatorCount? value
  | .call _ argument => operatorCount? argument
  | _ => 0

/-- How many operators there are in an expression that may be missing. -/
def operatorCount? : Option Node → Nat
  | none => 0
  | some node => operatorCount node

end

theorem operatorCount?_binary (operator : Text) (left right : Option Node) :
    operatorCount? (some (.binary operator left right)) =
      operatorCount? left + operatorCount? right + 1 := rfl

/-! ## Labels that were read from tokens -/

variable {n m left right left' right' : Option Node} {ts us : List Token} {t u : Token}

theorem label_unary {text : Text} (sign : Text) (h : label n = .ok text) :
    label (some (.unary sign n)) = .ok (sign ++ text) := by
  rw [label, Style.text_eq_plainText?] at h ⊢
  simp only [Style.plainText?, Style.plainText, h, Except.map]

theorem label_call {text : Text} (name : Text) (h : label n = .ok text) :
    label (some (.call name n)) = .ok (name ++ text) := by
  rw [label, Style.text_eq_plainText?] at h ⊢
  simp only [Style.plainText?, Style.plainText, h, Except.map]

theorem label_bracketed {text : Text} (closed : Bool) (h : label n = .ok text) :
    label (some (.bracketed n closed)) = .ok ("[" ++ text ++ "]") := by
  rw [label, Style.text_eq_plainText?] at h ⊢
  simp only [Style.plainText?, Style.plainText, h, Except.map]
  rfl

theorem label_binary {first second : Text} (operator : Text) (hl : label left = .ok first)
    (hr : label right = .ok second) : label (some (.binary operator left right)) =
      .ok ("(" ++ first ++ operator ++ second ++ ")") := by
  rw [label, Style.text_eq_plainText?] at hl hr ⊢
  simp only [Style.plainText?, Style.plainText, hl, hr, Except.map, Except.bind]
  rfl

/-- The flat text of the label is that of the tokens, but for a pair of parentheses for each
operator. -/
def Written (n : Option Node) (ts : List Token) : Prop :=
  ∃ text, label n = .ok text ∧
    (Text.lower text).length = (Text.lower (texts ts)).length + 2 * operatorCount? n ∧
      (operatorCount? n = 0 → text = texts ts)

namespace Written

theorem label_eq_ok (h : Written n ts) : ∃ text, label n = .ok text := by
  obtain ⟨text, hlabel, -⟩ := h
  exact ⟨text, hlabel⟩

/-- A label that has no operators and is written as its tokens are. -/
theorem of_label_eq (hlabel : label n = .ok (texts ts)) (hcount : operatorCount? n = 0) :
    Written n ts := ⟨_, hlabel, by rw [hcount]; rfl, fun _ => rfl⟩

/-- Text that was cut off is written as it is. -/
theorem unknown (ts : List Token) (line : Int) : Written (some (.unknown (texts ts) line)) ts :=
  .of_label_eq (by simp [label, Style.text, labelStyle]) rfl

theorem number (t : Token) : Written (some (.number t.value)) [t] :=
  .of_label_eq (by simp [label, Style.text, labelStyle]) rfl

theorem parameter (t : Token) : Written (some (.parameter t.value)) [t] :=
  .of_label_eq (by simp [label, Style.text, labelStyle]) rfl

theorem word (t : Token) : Written (some (.word t.value none)) [t] :=
  .of_label_eq (by simp [label, Style.text, Except.map]) rfl

theorem name (t : Token) : Written (some (.call t.value none)) [t] :=
  .of_label_eq (by simp [label, Style.text, Except.map]) rfl

/-- A label in front of which there is the text of one more token. -/
theorem prefixed {t : Token}
    (hlabel : ∀ {text}, label n = .ok text → label m = .ok (t.value ++ text))
    (hcount : operatorCount? m = operatorCount? n) (h : Written n ts) : Written m (t :: ts) := by
  obtain ⟨text, htext, hlength, heq⟩ := h
  refine ⟨_, hlabel htext, ?_, fun hzero => ?_⟩
  · rw [Token.texts_cons, Text.length_lower_append, Text.length_lower_append, hlength, hcount]
    omega
  · rw [Token.texts_cons, heq (hcount ▸ hzero)]

theorem unary (t : Token) (h : Written n ts) : Written (some (.unary t.value n)) (t :: ts) :=
  h.prefixed (label_unary t.value) rfl

theorem call (t : Token) (h : Written n ts) : Written (some (.call t.value n)) (t :: ts) :=
  h.prefixed (label_call t.value) rfl

theorem bracketed (ht : t.value = "[") (hu : u.value = "]") (h : Written n ts) (closed : Bool) :
    Written (some (.bracketed n closed)) (t :: (ts ++ [u])) := by
  obtain ⟨text, hlabel, hlength, htext⟩ := h
  have htexts : texts (t :: (ts ++ [u])) = "[" ++ texts ts ++ "]" := by
    simp [Token.texts_cons, ht, hu]
  have hcount : operatorCount? (some (.bracketed n closed)) = operatorCount? n := rfl
  refine ⟨_, label_bracketed closed hlabel, ?_, fun hzero => ?_⟩
  · rw [htexts, hcount]
    simp only [Text.length_lower_append, hlength]
    omega
  · rw [htexts, htext hzero]

theorem binary (t : Token) (hl : Written left ts) (hr : Written right us) :
    Written (some (.binary t.value left right)) (ts ++ t :: us) := by
  obtain ⟨first, hfirst, hlength, -⟩ := hl
  obtain ⟨second, hsecond, hlength', -⟩ := hr
  have hcount := operatorCount?_binary t.value left right
  have hopen : (Text.lower "(").length = 1 := by decide
  have hclose : (Text.lower ")").length = 1 := by decide
  refine ⟨_, label_binary t.value hfirst hsecond, ?_, fun hzero => absurd hzero (by omega)⟩
  rw [Token.texts_append, Token.texts_cons, hcount]
  simp only [Text.length_lower_append, hlength, hlength', hopen, hclose]
  omega

end Written

/-! ## Labels with the same flat text -/

/-- The labels have the same flat text, up to the case of ASCII letters. -/
def Matches (n m : Option Node) : Prop :=
  ∃ s t, label n = .ok s ∧ label m = .ok t ∧ Text.folded s = Text.folded t

theorem Written.matches (hn : Written n ts) (hm : Written m us)
    (htexts : Text.folded (texts ts) = Text.folded (texts us)) (hcount : operatorCount? n = 0)
    (hcount' : operatorCount? m = 0) : Matches n m := by
  obtain ⟨s, hs, -, htext⟩ := hn
  obtain ⟨t, ht, -, htext'⟩ := hm
  exact ⟨s, t, hs, ht, by rw [htext hcount, htext' hcount', htexts]⟩

namespace Matches

theorem prefixed (hn : ∀ {text}, label n = .ok text → label left = .ok (t.value ++ text))
    (hm : ∀ {text}, label m = .ok text → label right = .ok (u.value ++ text))
    (hfront : Text.folded t.value = Text.folded u.value) (h : Matches n m) :
    Matches left right := by
  obtain ⟨s, s', hs, hs', heq⟩ := h
  exact ⟨_, _, hn hs, hm hs', by simp only [Text.folded_append, hfront, heq]⟩

theorem bracketed (h : Matches n m) (closed closed' : Bool) :
    Matches (some (.bracketed n closed)) (some (.bracketed m closed')) := by
  obtain ⟨s, s', hs, hs', heq⟩ := h
  exact ⟨_, _, label_bracketed _ hs, label_bracketed _ hs', by simp only [Text.folded_append, heq]⟩

theorem binary (hoperator : Text.folded t.value = Text.folded u.value) (hl : Matches left left')
    (hr : Matches right right') :
    Matches (some (.binary t.value left right)) (some (.binary u.value left' right')) := by
  obtain ⟨s, s', hs, hs', heq⟩ := hl
  obtain ⟨r, r', hr, hr', heq'⟩ := hr
  refine ⟨_, _, label_binary _ hs hr, label_binary _ hs' hr', ?_⟩
  simp only [Text.folded_append, hoperator, heq, heq']

theorem labelsMatch (h : Matches n m) : Node.labelsMatch n m = .ok true := by
  obtain ⟨s, t, hs, ht, heq⟩ := h
  refine bind_eq_ok.mpr ⟨s, hs, map_eq_ok.mpr ⟨t, ht, ?_⟩⟩
  rw [Text.lower_eq_of_folded_eq heq, decide_eq_true rfl]

end Matches

/-! ## Labels with fewer operators -/

/-- The second label has no more operators than the first, and if it has as many, the same flat
text. -/
structure Coarser (n m : Option Node) : Prop where
  count_le : operatorCount? m ≤ operatorCount? n
  matches_of_eq : operatorCount? m = operatorCount? n → Matches n m

namespace Coarser

theorem unary (hsign : Text.folded t.value = Text.folded u.value) (h : Coarser n m) :
    Coarser (some (.unary t.value n)) (some (.unary u.value m)) :=
  ⟨h.count_le, fun hcount =>
    (h.matches_of_eq hcount).prefixed (label_unary t.value) (label_unary u.value) hsign⟩

theorem call (hname : Text.folded t.value = Text.folded u.value) (h : Coarser n m) :
    Coarser (some (.call t.value n)) (some (.call u.value m)) :=
  ⟨h.count_le, fun hcount =>
    (h.matches_of_eq hcount).prefixed (label_call t.value) (label_call u.value) hname⟩

theorem bracketed (h : Coarser n m) (closed closed' : Bool) :
    Coarser (some (.bracketed n closed)) (some (.bracketed m closed')) :=
  ⟨h.count_le, fun hcount => (h.matches_of_eq hcount).bracketed closed closed'⟩

theorem binary (hoperator : Text.folded t.value = Text.folded u.value) (hl : Coarser left left')
    (hr : Coarser right right') :
    Coarser (some (.binary t.value left right)) (some (.binary u.value left' right')) := by
  have hle := hl.count_le
  have hle' := hr.count_le
  refine ⟨?_, fun heq => ?_⟩
  · rw [operatorCount?_binary, operatorCount?_binary]
    omega
  · rw [operatorCount?_binary, operatorCount?_binary] at heq
    exact .binary hoperator (hl.matches_of_eq (by omega)) (hr.matches_of_eq (by omega))

/-- Labels that were read from the same tokens match if they have as many operators. -/
theorem labelsMatch_iff (h : Coarser n m) (hn : Written n ts) (hm : Written m us)
    (htexts : Text.folded (texts ts) = Text.folded (texts us)) :
    labelsMatch n m = .ok true ↔ operatorCount? m = operatorCount? n := by
  refine ⟨fun hmatch => ?_, fun hcount => (h.matches_of_eq hcount).labelsMatch⟩
  obtain ⟨s, hs, hlength, -⟩ := hn
  obtain ⟨t, ht, hlength', -⟩ := hm
  rw [labelsMatch, hs, ht] at hmatch
  have hlower : Text.lower s = Text.lower t := by
    simpa [Except.bind, Except.map] using hmatch
  have htexts := Text.length_lower_eq_of_folded_eq htexts
  rw [hlower] at hlength
  omega

end Coarser

end Node

end Gcode
