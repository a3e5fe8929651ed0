import Gcode.Proofs.Node.Label
import Gcode.Proofs.Parse.Sound

/-!
# What a label is written as

At every depth and with every limit on nesting, a sound expression is read to its end, and its flat
text is that of its tokens but for the parentheses. What the limit takes away is operators: text
that is cut off is written as its tokens are.

## Main definitions

* `Parse.Front` — a tree made of the first of the tokens of an expression.
* `Parse.Adds` — a tree to which the first of the operators at hand were added.

## Main statements

* `Parse.value_written` — a sound expression is read to its end, and written as its tokens.
-/

namespace Gcode.Parse

open Keyword (precedence)
open Node (Written operatorCount?)
open Sound (Operators)
open Token (texts)

variable (s : Setting)

/-! ## Signs beyond the limit -/

/-- Text that is cut off in front of signs goes on behind them. -/
theorem cutOffText_signs (level : Nat) (ahead : List Token) :
    (cutOffText s level ahead).value =
        (signs ahead).value.flatten ++ (cutOffText s level (signs ahead).rest).value ∧
      (cutOffText s level ahead).rest = (cutOffText s level (signs ahead).rest).rest := by
  induction ahead with
  | nil => exact ⟨rfl, rfl⟩
  | cons t ahead ih =>
    by_cases ht : isSign t = true
    · have hk : t.kind = .operator := by
        rw [isSign, Bool.and_eq_true, decide_eq_true_eq] at ht
        exact ht.1
      rw [signs, if_pos ht, cutOffText, if_neg (by
        simp [endsCommands, isOWord, startsAssignment, hk])]
      simp only [hk]
      refine ⟨?_, ih.2⟩
      simp [Parsed.behindToken, Parsed.map, ih.1]
    · rw [signs, if_neg ht]
      exact ⟨rfl, rfl⟩

/-- Beyond the limit on nesting, the sign at hand is kept as text with all that follows it. -/
theorem operand_beyond {depth : Nat} (hd : s.maxDepth ≤ depth) {t : Token} (ht : isSign t = true)
    (ahead : List Token) :
    ∃ line reports, (operand s depth (t :: ahead)).Yields
      (some (.unknown (cutOffText s 0 (t :: ahead)).value line))
      (cutOffText s 0 (t :: ahead)).rest reports := by
  obtain ⟨hvalue, hrest⟩ := cutOffText_signs s 0 (t :: ahead)
  have hroom : (s.maxDepth - (depth : Int)).toNat = 0 := by omega
  have hpos : 0 < (signs (t :: ahead)).value.length := by
    rw [signs, if_pos ht]
    exact Nat.succ_pos _
  rw [operand]
  dsimp only
  rw [hroom, if_pos hpos, hvalue, hrest]
  exact ⟨_, _, rfl, rfl, rfl⟩

/-! ## Trees and the tokens they are written as -/

/-- The tree is written as the first of the tokens `ts`; the others, which are operators, are left
in front of `tail`. -/
inductive Front (ts tail : List Token) : Option Node → List Token → Prop
  | intro {n : Option Node} {used us : List Token} : Written n used → Operators us →
    used ++ us = ts → Front ts tail n (us ++ tail)

/-- The tree is `left`, which is written as `before`, to which the first of the operators `us` were
added; the others are left in front of `tail`. -/
inductive Adds (tail : List Token) (left : Option Node) (before us : List Token) :
    Option Node → List Token → Prop
  | nothing : Operators us → Written left before → Adds tail left before us left (us ++ tail)
  | operators {n : Option Node} {used ws : List Token} : used ++ ws = us → Operators ws →
    Written n (before ++ used) → operatorCount? left < operatorCount? n →
    Adds tail left before us n (ws ++ tail)

variable {s}

theorem Adds.front {tail before us : List Token} {left n : Option Node} {rest : List Token}
    (h : Adds tail left before us n rest) : Front (before ++ us) tail n rest := by
  cases h with
  | nothing hus hn => exact .intro hn hus rfl
  | @operators _ used ws heq hws hn _ =>
    refine .intro hn hws ?_
    rw [List.append_assoc, heq]

/-- Operators are added to a tree that others were added to. -/
theorem Adds.trans {tail before us behind : List Token} {left middle n : Option Node}
    {rest : List Token} (h : Adds tail left before us middle behind)
    (k : ∀ {used ws}, behind = ws ++ tail → Operators ws → Written middle used →
      Adds tail middle used ws n rest) : Adds tail left before us n rest := by
  cases h with
  | nothing hus hn => exact k rfl hus hn
  | @operators _ used ws heq hws hn hlt =>
    cases k rfl hws hn with
    | nothing hws hn => exact .operators heq hws hn hlt
    | @operators _ used' ws' heq' hws' hn' hlt' =>
      refine @Adds.operators _ _ _ _ _ (used ++ used') _ ?_ hws' ?_ (Nat.lt_trans hlt hlt')
      · rw [List.append_assoc, heq', heq]
      · rwa [← List.append_assoc]

/-- A tree to which operators were added is made of the first of the tokens. -/
theorem Front.trans {ts tail : List Token} {left n : Option Node} {behind rest : List Token}
    (h : Front ts tail left behind)
    (k : ∀ {used ws}, behind = ws ++ tail → Operators ws → Written left used →
      Adds tail left used ws n rest) : Front ts tail n rest := by
  cases h with
  | intro hn hus heq => exact heq ▸ (k rfl hus hn).front

/-- If no operator is left, all tokens were taken. -/
theorem Front.whole {ts tail : List Token} {n : Option Node} {rest : List Token}
    (h : Front ts tail n rest) (hrest : NoOperatorAhead rest) : rest = tail ∧ Written n ts := by
  cases h with
  | @intro used us hn hus heq =>
    cases hus with
    | nil =>
      rw [List.append_nil] at heq
      exact ⟨rfl, heq ▸ hn⟩
    | cons ht _ _ =>
      rw [hrest _ rfl] at ht
      cases ht

theorem operatorCount_lt_binary (operator : Text) (left right : Option Node) :
    operatorCount? left < operatorCount? (some (.binary operator left right)) := by
  rw [Node.operatorCount?_binary]
  omega

theorem Front.exists_eq {ts tail : List Token} {n : Option Node} {rest : List Token}
    (h : Front ts tail n rest) :
    ∃ used us, used ++ us = ts ∧ Operators us ∧ Written n used ∧ rest = us ++ tail := by
  cases h with
  | intro hn hus heq => exact ⟨_, _, heq, hus, hn, rfl⟩

/-- Operators are added to a tree that is made of an operator at hand and its right operand. -/
theorem Adds.binary {t : Token} {ts tail before used ws : List Token} {left right n : Option Node}
    {rest : List Token} (heq : used ++ ws = ts)
    (h : Adds tail (some (.binary t.value left right)) (before ++ t :: used) ws n rest) :
    Adds tail left before (t :: ts) n rest := by
  have hlt := operatorCount_lt_binary t.value left right
  cases h with
  | nothing hws hn =>
    exact @Adds.operators _ _ _ _ _ (t :: used) _ (congrArg (t :: ·) heq) hws hn hlt
  | @operators _ used' ws' heq' hws' hn hlt' =>
    refine @Adds.operators _ _ _ _ _ (t :: used ++ used') _ ?_ hws' ?_ (Nat.lt_trans hlt hlt')
    · rw [List.append_assoc, heq', ← heq]
      rfl
    · rwa [← List.append_assoc]

variable (s)

/-! ## Expressions -/

/-- The operand that a token of its own is read as. -/
def leaf (t : Token) : Node :=
  match t.kind with
  | .number => .number t.value
  | .parameter => .parameter t.value
  | .word => .word t.value none
  | _ => .call t.value none

theorem leaf_written {t : Token} (ht : Sound.IsLeaf t) : Written (some (leaf t)) [t] := by
  unfold leaf
  rcases ht with ht | ht | ht | ht <;> simp only [ht]
  exacts [.number t, .parameter t, .word t, .name t]

/-- No bracket is opened behind an operand. -/
theorem ne_openBracket_of_operators {us tail : List Token} (hus : Operators us)
    (htail : Stops tail) : ∀ u ∈ (us ++ tail).head?, u.kind ≠ .openBracket := by
  intro u hu hk
  cases hus with
  | nil => rcases htail u hu with h | h <;> simp [hk] at h
  | cons ht _ _ =>
    obtain rfl := Option.some.inj hu
    simp [isOperator, hk] at ht

theorem operand_leaf (depth : Nat) {t : Token} (ht : Sound.IsLeaf t) {ahead : List Token}
    (hahead : ∀ u ∈ ahead.head?, u.kind ≠ .openBracket) :
    (operand s depth (t :: ahead)).Yields (some (leaf t)) ahead [] := by
  have hsign : isSign t = false := isSign_eq_false_of_kind fun hk => by
    simp [Sound.IsLeaf, hk] at ht
  rw [operand_eq_primary s depth hsign, primary.eq_def]
  unfold leaf
  rcases ht with ht | ht | ht | ht <;> simp only [ht]
  case inr.inr.inr =>
    cases ahead with
    | nil => exact ⟨rfl, rfl, rfl⟩
    | cons u more =>
      dsimp only
      rw [if_neg (hahead u rfl)]
      exact ⟨rfl, rfl, rfl⟩
  all_goals exact ⟨rfl, rfl, rfl⟩

mutual

/-- A sound expression is read to its end, and written as its tokens are. -/
theorem value_written (depth : Nat) {ts us tail : List Token} (hts : Sound.Operand ts)
    (hus : Operators us) (htail : Stops tail) :
    (value s depth (ts ++ us ++ tail)).rest = tail ∧
      Written (value s depth (ts ++ us ++ tail)).value (ts ++ us) := by
  have hend := (value_climbed s depth (ts ++ us ++ tail)).looser.noOperatorAhead
  refine Front.whole ?_ hend
  rw [value]
  have hle := (operand s depth (ts ++ us ++ tail)).length_rest_le
  exact (operand_written depth hts hus htail).trans fun hbehind hws hleft => by
    dsimp only [Parsed.behind]
    rw [hbehind]
    exact chain_written depth _ 0 hws htail hleft
termination_by ((ts ++ us ++ tail).length, 4)
decreasing_by
  · exact Prod.Lex.right _ (by omega)
  · exact Prod.Lex.right' _ (by rwa [hbehind] at hle) (by omega)

theorem chain_written (depth : Nat) {left : Option Node} (height : Nat) (least : Int)
    {before us tail : List Token} (hus : Operators us) (htail : Stops tail)
    (hl : Written left before) :
    Adds tail left before us (chain s depth left height least (us ++ tail)).value
      (chain s depth left height least (us ++ tail)).rest := by
  match hus with
  | .nil =>
    have hdone := chain_stops s depth left height least htail
    rw [List.nil_append, hdone.value_eq, hdone.rest_eq]
    exact .nothing .nil hl
  | @Operators.cons t ts us ht hts hmore =>
    rw [List.cons_append, chain]
    by_cases hb : binds t least = true
    · rw [if_pos hb]
      obtain ⟨_, _, _, heq, -, -, hadds⟩ := link_written depth t height least hts hmore htail hl
      exact .binary heq hadds
    · rw [if_neg hb]
      exact .nothing (.cons ht hts hmore) hl
termination_by ((us ++ tail).length, 3)
decreasing_by exact Prod.Lex.left _ _ (by simp)

/-- An operator takes a right operand, and what it is made of then takes more operators. -/
theorem link_written (depth : Nat) (t : Token) {left : Option Node} (height : Nat) (least : Int)
    {before ts us tail : List Token} (hts : Sound.Operand ts) (hus : Operators us)
    (htail : Stops tail) (hl : Written left before) :
    ∃ right used ws, used ++ ws = ts ++ us ∧ Operators ws ∧ Written right used ∧
      Adds tail (some (.binary t.value left right)) (before ++ t :: used) ws
        (link s depth t left height least (ts ++ us ++ tail)).value
        (link s depth t left height least (ts ++ us ++ tail)).rest := by
  rw [link]
  by_cases hd : s.maxDepth ≤ depth + height
  · have hcut := cutOffText_sound s (hts.passed.append hus.passed) htail
    rw [if_pos hd]
    dsimp only [Parsed.map, Parsed.withReport, cutOff]
    rw [hcut.value_eq, hcut.rest_eq, List.nil_append]
    have hright := Written.unknown (ts ++ us) (current s (ts ++ us ++ tail)).line
    exact ⟨_, ts ++ us, [], List.append_nil _, .nil, hright, .nothing .nil (hl.binary t hright)⟩
  · rw [if_neg hd]
    have hle := (operand s depth (ts ++ us ++ tail)).length_rest_le
    have hright : Front (ts ++ us) tail
        (tighten s depth (operand s depth (ts ++ us ++ tail)).value (precedence t.value)
          (operand s depth (ts ++ us ++ tail)).rest).value
        (tighten s depth (operand s depth (ts ++ us ++ tail)).value (precedence t.value)
          (operand s depth (ts ++ us ++ tail)).rest).rest :=
      (operand_written depth hts hus htail).trans fun hbehind hws hfirst => by
        rw [hbehind]
        exact tighten_written depth _ hws htail hfirst
    dsimp only [Parsed.behind]
    have hle' := (tighten s depth (operand s depth (ts ++ us ++ tail)).value (precedence t.value)
      (operand s depth (ts ++ us ++ tail)).rest).length_rest_le
    obtain ⟨used, ws, heq, hws, hn, hbehind⟩ := hright.exists_eq
    refine ⟨_, used, ws, heq, hws, hn, ?_⟩
    rw [hbehind]
    exact chain_written depth _ least hws htail (hl.binary t hn)
termination_by ((ts ++ us ++ tail).length, 5)
decreasing_by
  · exact Prod.Lex.right _ (by omega)
  · exact Prod.Lex.right' _ (by rwa [hbehind] at hle) (by omega)
  · refine Prod.Lex.right' _ ?_ (by omega)
    rw [hbehind] at hle'
    exact Nat.le_trans hle' hle

theorem tighten_written (depth : Nat) {right : Option Node} (bound : Int)
    {before us tail : List Token} (hus : Operators us) (htail : Stops tail)
    (hr : Written right before) :
    Adds tail right before us (tighten s depth right bound (us ++ tail)).value
      (tighten s depth right bound (us ++ tail)).rest := by
  match hus with
  | .nil =>
    have hdone := tighten_stops s depth right bound htail
    rw [List.nil_append, hdone.value_eq, hdone.rest_eq]
    exact .nothing .nil hr
  | @Operators.cons t ts us ht hts hmore =>
    rw [List.cons_append, tighten]
    by_cases hb : (isOperator t && bound < (precedence t.value : Int)) = true
    · rw [if_pos hb]
      have hle := (link s depth t right (Node.height right) (precedence t.value)
        (ts ++ us ++ tail)).length_rest_le
      obtain ⟨_, _, _, heq, -, -, hadds⟩ :=
        link_written depth t (Node.height right) (precedence t.value) hts hmore htail hr
      exact (Adds.binary heq hadds).trans fun hbehind hws hn => by
        dsimp only [Parsed.behind, Parsed.behindToken]
        rw [hbehind]
        exact tighten_written depth bound hws htail hn
    · rw [if_neg hb]
      exact .nothing (.cons ht hts hmore) hr
termination_by ((us ++ tail).length, 3)
decreasing_by
  · exact Prod.Lex.left _ _ (by simp)
  · rw [hbehind] at hle
    exact Prod.Lex.left _ _ (Nat.lt_succ_of_le hle)

theorem operand_written (depth : Nat) {ts us tail : List Token} (hts : Sound.Operand ts)
    (hus : Operators us) (htail : Stops tail) :
    Front (ts ++ us) tail (operand s depth (ts ++ us ++ tail)).value
      (operand s depth (ts ++ us ++ tail)).rest := by
  match hts with
  | @Sound.Operand.leaf t ht _ =>
    have hleaf := operand_leaf s depth ht (ne_openBracket_of_operators hus htail)
    show Front (t :: us) tail (operand s depth (t :: (us ++ tail))).value
      (operand s depth (t :: (us ++ tail))).rest
    rw [hleaf.value_eq, hleaf.rest_eq]
    exact .intro (leaf_written ht) hus rfl
  | @Sound.Operand.signed t ts ht ho =>
    show Front (t :: (ts ++ us)) tail (operand s depth (t :: (ts ++ us ++ tail))).value
      (operand s depth (t :: (ts ++ us ++ tail))).rest
    by_cases hd : (depth : Int) < s.maxDepth
    · have hfront := operand_written (depth + 1) ho hus htail
      rw [operand_within s hd ht]
      dsimp only [Parsed.behindToken, Parsed.map]
      generalize (operand s (depth + 1) (ts ++ us ++ tail)).rest = rest at hfront ⊢
      cases hfront with
      | @intro used us' hn hus' heq =>
        exact .intro (hn.unary t) hus' (congrArg (t :: ·) heq)
    · obtain ⟨line, reports, hcut⟩ := operand_beyond s (Int.not_lt.mp hd) ht (ts ++ us ++ tail)
      have htext : (cutOffText s 0 (t :: (ts ++ us ++ tail))).Yields (texts (t :: (ts ++ us)))
          tail [] :=
        cutOffText_sound s ((Sound.Operand.signed ht ho).passed.append hus.passed) htail
      rw [hcut.value_eq, hcut.rest_eq, htext.value_eq, htext.rest_eq]
      exact .intro (.unknown _ _) .nil (List.append_nil _)
  | @Sound.Operand.call t ts ht hb =>
    obtain ⟨u, more, rfl, hu⟩ := hb.exists_cons
    obtain ⟨hrest, hn⟩ := opened_written depth hb (us ++ tail)
    have hahead : t :: (u :: more) ++ us ++ tail = t :: u :: (more ++ (us ++ tail)) := by simp
    rw [hahead, operand_call s depth ht hu]
    dsimp only [Parsed.behindToken, Parsed.map]
    rw [hrest]
    exact .intro (hn.call t) hus rfl
  | @Sound.Operand.bracket ts hb =>
    obtain ⟨u, more, rfl, hu⟩ := hb.exists_cons
    obtain ⟨hrest, hn⟩ := opened_written depth hb (us ++ tail)
    have hahead : u :: more ++ us ++ tail = u :: (more ++ (us ++ tail)) := by simp
    rw [hahead, operand_bracket s depth hu]
    dsimp only [Parsed.map]
    rw [hrest]
    exact .intro hn hus rfl
termination_by ((ts ++ us ++ tail).length, 2)
decreasing_by
  all_goals subst_vars
  · exact Prod.Lex.left _ _ (by simp)
  · exact Prod.Lex.left _ _ (by simp)
  · exact Prod.Lex.right' _ (by simp) (by omega)

theorem opened_written (depth : Nat) {t : Token} {ts : List Token} (h : Sound.Bracket (t :: ts))
    (rest : List Token) :
    (opened s depth t (ts ++ rest)).rest = rest ∧
      Written (some (opened s depth t (ts ++ rest)).value) (t :: ts) := by
  rw [opened]
  by_cases hd : s.maxDepth ≤ depth
  · have hgroup := groupText_sound h rest
    rw [List.cons_append] at hgroup
    rw [if_pos hd]
    dsimp only [Parsed.withReport, bracketGroup, Parsed.map]
    rw [hgroup.value_eq, hgroup.rest_eq]
    exact ⟨rfl, .unknown _ _⟩
  · rw [if_neg hd, enclosed]
    match h with
    | @Sound.Bracket.enclosed _ u ts us ht htext hu hutext hts hus =>
      have hstops : Stops (u :: rest) := fun v hv => by
        obtain rfl := Option.some.inj hv
        exact .inl hu
      obtain ⟨hrest, hn⟩ := value_written (depth + 1) hts hus hstops
      rw [List.append_assoc, List.singleton_append]
      dsimp only [Parsed.behind, Parsed.behindToken, Parsed.map]
      rw [hrest, expect_cons_of_eq s hu]
      exact ⟨rfl, hn.bracketed htext hutext _⟩
termination_by ((t :: ts ++ rest).length, 0)
decreasing_by exact Prod.Lex.left _ _ (by simp)

end

end Gcode.Parse
