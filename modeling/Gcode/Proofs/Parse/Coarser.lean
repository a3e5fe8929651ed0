import Gcode.Proofs.Parse.Folded
import Gcode.Proofs.Parse.Height
import Gcode.Proofs.Parse.Written
import Mathlib.Data.List.Forall2

/-!
# One expression read with more room and with less

An expression is read twice, the second time with less room below the limit on nesting. As long as
no limit is reached in the second reading, both are abreast and make the same tree. Once the second
reading has cut something off, it is done with the expression, or with a bracket of it; the first
may only go on to add operators. So the second tree has no more operators than the first, and if it
has as many, the two have the same flat text: what was cut off was signs and brackets alone.

## Main definitions

* `Token.Alike` — tokens that agree up to the case of letters and their lines.
* `Parse.Nearly` — two trees of which the second is like the first, or at its limit.
* `Parse.Outcome` — how two readings of one expression stand to one another.

## Main statements

* `Parse.value_nearly` — the second tree has no more operators than the first, and the same flat
  text if it has as many.
-/

namespace Gcode

open Token (texts)

/-- The tokens agree up to the case of ASCII letters and their lines. -/
structure Token.Alike (t u : Token) : Prop where
  kind_eq : u.kind = t.kind
  folded_eq : Text.folded t.value = Text.folded u.value

namespace Token.Alike

variable {t u : Token}

theorem precedence_eq (h : t.Alike u) :
    Keyword.precedence u.value = Keyword.precedence t.value := by
  rw [← Parse.precedence_folded t.value, h.folded_eq, Parse.precedence_folded]

theorem isOperator_eq (h : t.Alike u) : Parse.isOperator u = Parse.isOperator t := by
  rw [Parse.isOperator, h.kind_eq, Parse.isOperator]

theorem binds_eq (h : t.Alike u) (least : Int) : Parse.binds u least = Parse.binds t least := by
  rw [Parse.binds, h.isOperator_eq, h.precedence_eq, Parse.binds]

theorem isSign_eq (h : t.Alike u) : Parse.isSign u = Parse.isSign t := by
  have heq : u.folded = { t.folded with line := u.line } := by
    simp [Token.folded, h.kind_eq, h.folded_eq]
  rw [← Parse.isSign_folded u, heq, ← Parse.isSign_folded t]
  rfl

theorem isOWord_eq (h : t.Alike u) : Parse.isOWord u = Parse.isOWord t := by
  rw [Parse.isOWord, h.kind_eq, ← Text.lower_eq_of_folded_eq h.folded_eq, Parse.isOWord]

/-- A text without letters is seen whatever the case is. -/
theorem value_eq (h : t.Alike u) {word : Text} (hword : word.all fun c => !Text.isLetter c)
    (ht : t.value = word) : u.value = word := by
  have hfolded := h.folded_eq
  rw [ht] at hfolded
  exact (Text.folded_eq_iff hword u.value).mp (hfolded.symm.trans
    ((Text.folded_eq_iff hword word).mpr rfl))

end Token.Alike

namespace Sound

/-! ## Tokens that are alike -/

variable {ts us vs : List Token} {t u : Token}

/-- Tokens that are like those of two lists are made of two such lists. -/
theorem exists_append_of_alike (h : List.Forall₂ Token.Alike (ts ++ us) vs) :
    ∃ ts' us', vs = ts' ++ us' ∧ List.Forall₂ Token.Alike ts ts' ∧
      List.Forall₂ Token.Alike us us' := by
  induction ts generalizing vs with
  | nil => exact ⟨[], vs, rfl, .nil, h⟩
  | cons t ts ih =>
    cases h with
    | cons ht hmore =>
      obtain ⟨ts', us', rfl, hts, hus⟩ := ih hmore
      exact ⟨_ :: ts', us', rfl, .cons ht hts, hus⟩

theorem folded_texts_eq (h : List.Forall₂ Token.Alike ts us) :
    Text.folded (texts ts) = Text.folded (texts us) := by
  induction h with
  | nil => rfl
  | cons ht _ ih => rw [Token.texts_cons, Token.texts_cons, Text.folded_append, Text.folded_append,
      ht.folded_eq, ih]

theorem IsLeaf.alike (h : t.Alike u) (ht : IsLeaf t) : IsLeaf u := by
  unfold IsLeaf at ht ⊢
  rwa [h.kind_eq]

mutual

theorem Operand.alike {ts us : List Token} (h : Operand ts)
    (halike : List.Forall₂ Token.Alike ts us) : Operand us := by
  match h, halike with
  | .leaf ht ho, .cons hu .nil => exact .leaf (ht.alike hu) (hu.isOWord_eq.trans ho)
  | .call ht hb, .cons hu hmore => exact .call (hu.kind_eq.trans ht) (hb.alike hmore)
  | .signed ht ho, .cons hu hmore => exact .signed (hu.isSign_eq.trans ht) (ho.alike hmore)
  | .bracket hb, halike => exact .bracket (hb.alike halike)

theorem Bracket.alike {ts us : List Token} (h : Bracket ts)
    (halike : List.Forall₂ Token.Alike ts us) : Bracket us := by
  match h, halike with
  | .enclosed ht htext hu hutext ho hmore, .cons ht' hinner =>
    obtain ⟨inner, last, rfl, hinner, hlast⟩ := exists_append_of_alike hinner
    obtain ⟨ts', us', rfl, hts, hus⟩ := exists_append_of_alike hinner
    cases hlast with
    | cons hu' hnil =>
      cases hnil
      exact .enclosed (ht'.kind_eq.trans ht) (ht'.value_eq (by decide) htext)
        (hu'.kind_eq.trans hu) (hu'.value_eq (by decide) hutext) (ho.alike hts) (hmore.alike hus)

theorem Operators.alike {ts us : List Token} (h : Operators ts)
    (halike : List.Forall₂ Token.Alike ts us) : Operators us := by
  match h, halike with
  | .nil, .nil => exact .nil
  | .cons ht ho hmore, .cons ht' hrest =>
    obtain ⟨ts', us', rfl, hts, hus⟩ := exists_append_of_alike hrest
    exact .cons (ht'.isOperator_eq.trans ht) (ho.alike hts) (hmore.alike hus)

end

end Sound

namespace Parse

open Keyword (precedence)
open Node (Coarser Matches Written height operatorCount? operatorCount?_binary)
open Sound (Operators)

/-! ## Two readings of one expression -/

/-- The second tree has no more operators than the first, and the same flat text if it has as many.
It is as high as the first unless it is as high as there is room. -/
structure Nearly (room : Nat) (n m : Option Node) : Prop where
  coarser : Coarser n m
  height : room ≤ height m ∨ height n ≤ height m

/-- How two readings of one expression stand to one another, which are to end in front of `tail` and
`tail'`. There is `room` for the second. -/
inductive Outcome (tail tail' : List Token) (room : Nat) (n m : Option Node) :
    List Token → List Token → Prop
  /-- The same operators are left to both. -/
  | abreast {used us us' : List Token} : Written n used → Operators us →
    List.Forall₂ Token.Alike us us' → Nearly room n m →
    Outcome tail tail' room n m (us ++ tail) (us' ++ tail')
  /-- The second is cut off and done. If there is nothing left to the first, it has the same flat
  text or more operators. -/
  | behind {used us : List Token} : Written n used → Operators us → room ≤ height m →
    operatorCount? m ≤ operatorCount? n →
    (us = [] → operatorCount? m = operatorCount? n → Matches n m) →
    Outcome tail tail' room n m (us ++ tail) tail'

variable {tail tail' : List Token} {room : Nat}

theorem Nearly.unary {t u : Token} (hsign : Text.folded t.value = Text.folded u.value)
    {n m : Option Node} (h : Nearly (room - 1) n m) :
    Nearly room (some (.unary t.value n)) (some (.unary u.value m)) := by
  have hheight := h.height
  refine ⟨h.coarser.unary hsign, ?_⟩
  rw [Node.height_eq_of_operands rfl, Node.height_eq_of_operands rfl]
  omega

theorem Nearly.bracketed (closed closed' : Bool) {n m : Option Node} (h : Nearly (room - 1) n m) :
    Nearly room (some (.bracketed n closed)) (some (.bracketed m closed')) := by
  have hheight := h.height
  refine ⟨h.coarser.bracketed closed closed', ?_⟩
  rw [Node.height_eq_of_operands rfl, Node.height_eq_of_operands rfl]
  omega

theorem Nearly.call {t u : Token} (hname : Text.folded t.value = Text.folded u.value)
    {n m : Option Node} (h : Nearly room n m) :
    Nearly room (some (.call t.value n)) (some (.call u.value m)) := by
  have hheight := h.height
  refine ⟨h.coarser.call hname, ?_⟩
  rw [Node.height_eq_of_operands rfl, Node.height_eq_of_operands rfl]
  omega

theorem Nearly.binary {t u : Token} (hoperator : Text.folded t.value = Text.folded u.value)
    {left left' right right' : Option Node} (hl : Nearly room left left')
    (hr : Nearly room right right') :
    Nearly room (some (.binary t.value left right)) (some (.binary u.value left' right')) := by
  have hheight := hl.height
  have hheight' := hr.height
  refine ⟨hl.coarser.binary hoperator hr.coarser, ?_⟩
  rw [Node.height_binary, Node.height_binary]
  omega

namespace Outcome

variable {n m : Option Node} {rest rest' : List Token}

/-- The second reading keeps all that is left as text, and is done. -/
theorem of_cut {ts ts' : List Token} (h : Front ts tail n rest)
    (halike : List.Forall₂ Token.Alike ts ts') (line : Int) :
    Outcome tail tail' 0 n (some (.unknown (texts ts') line)) rest tail' := by
  cases h with
  | @intro used us hn hus heq =>
    refine .behind hn hus (Nat.zero_le _) (Nat.zero_le _) fun hnil hcount => ?_
    rw [hnil, List.append_nil] at heq
    subst heq
    exact hn.matches (.unknown ts' line) (Sound.folded_texts_eq halike) hcount.symm rfl

/-- The first reading goes on while the second is done. -/
theorem behind_adds {left : Option Node} {used us : List Token} (hus : Operators us)
    (hheight : room ≤ height m) (hle : operatorCount? m ≤ operatorCount? left)
    (hmatches : us = [] → operatorCount? m = operatorCount? left → Matches left m)
    (h : Adds tail left used us n rest) : Outcome tail tail' room n m rest tail' := by
  cases h with
  | nothing _ hn => exact .behind hn hus hheight hle hmatches
  | operators _ hws hn hlt =>
    refine .behind hn hws hheight (Nat.le_trans hle (Nat.le_of_lt hlt)) fun _ hcount => ?_
    omega

/-- At the end of the expression, one tree is nearly the other. -/
theorem nearly (h : Outcome tail tail' room n m rest rest') (hrest : NoOperatorAhead rest) :
    Nearly room n m := by
  cases h with
  | abreast _ _ _ hn => exact hn
  | behind _ hus hheight hle hmatches =>
    cases hus with
    | nil => exact ⟨⟨hle, hmatches rfl⟩, .inl hheight⟩
    | cons ht _ _ =>
      rw [hrest _ rfl] at ht
      cases ht

theorem unary {t u : Token} (hsign : Text.folded t.value = Text.folded u.value)
    (h : Outcome tail tail' (room - 1) n m rest rest') :
    Outcome tail tail' room (some (.unary t.value n)) (some (.unary u.value m)) rest rest' := by
  cases h with
  | abreast hn hus halike hnearly => exact .abreast (hn.unary t) hus halike (hnearly.unary hsign)
  | behind hn hus hheight hle hmatches =>
    refine .behind (hn.unary t) hus ?_ hle fun hnil hcount => ?_
    · rw [Node.height_eq_of_operands rfl]
      omega
    · exact (hmatches hnil hcount).prefixed (Node.label_unary _) (Node.label_unary _) hsign

/-- An operator with the right operand that both readings came to. -/
theorem binary {t u : Token} (hoperator : Text.folded t.value = Text.folded u.value)
    {left left' right right' : Option Node} {used : List Token} (hleft : Written left used)
    (hl : Nearly room left left') (h : Outcome tail tail' room right right' rest rest') :
    Outcome tail tail' room (some (.binary t.value left right))
      (some (.binary u.value left' right')) rest rest' := by
  cases h with
  | abreast hr hus halike hnearly =>
    exact .abreast (hleft.binary t hr) hus halike (hl.binary hoperator hnearly)
  | behind hr hus hheight hle hmatches =>
    have hleft_le := hl.coarser.count_le
    refine .behind (hleft.binary t hr) hus ?_ ?_ fun hnil heq => ?_
    · rw [Node.height_binary]
      omega
    · rw [operatorCount?_binary, operatorCount?_binary]
      omega
    · rw [operatorCount?_binary, operatorCount?_binary] at heq
      exact .binary hoperator (hl.coarser.matches_of_eq (by omega)) (hmatches hnil (by omega))

/-- Both readings go on: abreast as long as they are, the first alone when the second is done. -/
theorem trans {left left' : Option Node} {behind behind' : List Token}
    (h : Outcome tail tail' room left left' behind behind')
    (habreast : ∀ {used us us'}, behind = us ++ tail → behind' = us' ++ tail' → Written left used →
      Operators us → List.Forall₂ Token.Alike us us' → Nearly room left left' →
      Outcome tail tail' room n m rest rest')
    (hadds : ∀ {used us}, behind = us ++ tail → Operators us → Written left used →
      Adds tail left used us n rest)
    (hdone : behind' = tail' → m = left' ∧ rest' = tail') :
    Outcome tail tail' room n m rest rest' := by
  cases h with
  | abreast hn hus halike hnearly => exact habreast rfl rfl hn hus halike hnearly
  | behind hn hus hheight hle hmatches =>
    obtain ⟨rfl, rfl⟩ := hdone rfl
    exact behind_adds hus hheight hle hmatches (hadds rfl hus hn)

end Outcome

/-! ## Expressions -/

theorem room_le_iff (s : Setting) (depth size : Nat) :
    s.room depth ≤ size ↔ s.maxDepth ≤ (depth : Int) + (size : Int) := by
  unfold Setting.room
  omega

theorem room_succ (s : Setting) (depth : Nat) : s.room (depth + 1) = s.room depth - 1 := by
  unfold Setting.room
  omega

theorem leaf_nearly {t u : Token} (h : t.Alike u) (ht : Sound.IsLeaf t) (room : Nat) :
    Nearly room (some (leaf t)) (some (leaf u)) := by
  have hzero : ∀ v, operatorCount? (some (leaf v)) = 0 := fun v => by
    unfold leaf
    cases v.kind <;> rfl
  have hone : ∀ v, height (some (leaf v)) = 1 := fun v => by
    unfold leaf
    cases v.kind <;> first
      | exact Node.height_leaf rfl
      | exact (Node.height_eq_of_operands rfl).trans (by rw [Node.height_none])
  have hmatches : Matches (some (leaf t)) (some (leaf u)) :=
    (leaf_written ht).matches (leaf_written (ht.alike h))
      (Sound.folded_texts_eq (.cons h .nil)) (hzero t) (hzero u)
  exact ⟨⟨Nat.le_of_eq ((hzero u).trans (hzero t).symm), fun _ => hmatches⟩,
    .inr (Nat.le_of_eq ((hone t).trans (hone u).symm))⟩

variable (s s' : Setting)

/-! ## What is beyond the limit in the second reading -/

section

variable {depth depth' : Nat} {t u : Token} {ts ts' us us' tail tail' : List Token}

/-- A sign beyond the limit takes all that is left of the expression as text. -/
theorem operand_outcome_beyond (ht : isSign t = true) (htu : t.Alike u) (hts : Sound.Operand ts)
    (hus : Operators us) (hts' : List.Forall₂ Token.Alike ts ts')
    (hus' : List.Forall₂ Token.Alike us us') (htail : Stops tail) (htail' : Stops tail')
    (hd' : s'.room depth' = 0) :
    Outcome tail tail' (s'.room depth') (operand s depth (t :: ts ++ us ++ tail)).value
      (operand s' depth' (u :: ts' ++ us' ++ tail')).value
      (operand s depth (t :: ts ++ us ++ tail)).rest
      (operand s' depth' (u :: ts' ++ us' ++ tail')).rest := by
  have hu : isSign u = true := htu.isSign_eq.trans ht
  have hbeyond : s'.maxDepth ≤ depth' := by
    unfold Setting.room at hd'
    omega
  obtain ⟨line, reports, hcut⟩ := operand_beyond s' hbeyond hu (ts' ++ us' ++ tail')
  have htext : (cutOffText s' 0 (u :: (ts' ++ us' ++ tail'))).Yields
      (texts (u :: (ts' ++ us'))) tail' [] :=
    cutOffText_sound s' ((Sound.Operand.signed hu (hts.alike hts')).passed.append
      (hus.alike hus').passed) htail'
  have hleft := operand_written s depth (.signed ht hts) hus htail
  show Outcome tail tail' (s'.room depth') (operand s depth (t :: ts ++ us ++ tail)).value
    (operand s' depth' (u :: (ts' ++ us' ++ tail'))).value
    (operand s depth (t :: ts ++ us ++ tail)).rest
    (operand s' depth' (u :: (ts' ++ us' ++ tail'))).rest
  rw [hcut.value_eq, hcut.rest_eq, htext.value_eq, htext.rest_eq, hd']
  exact .of_cut hleft (.cons htu (List.rel_append hts' hus')) line

/-- An operator beyond the limit takes all that is left of the expression as text. -/
theorem link_outcome_beyond (htu : t.Alike u) (hts : Sound.Operand ts) (hus : Operators us)
    (hts' : List.Forall₂ Token.Alike ts ts') (hus' : List.Forall₂ Token.Alike us us')
    (htail : Stops tail) (htail' : Stops tail') (least : Int) {left left' : Option Node}
    {before : List Token} (hl : Written left before) (hn : Nearly (s'.room depth') left left')
    (hd' : s'.room depth' ≤ height left') :
    Outcome tail tail' (s'.room depth')
      (link s depth t left (height left) least (ts ++ us ++ tail)).value
      (link s' depth' u left' (height left') least (ts' ++ us' ++ tail')).value
      (link s depth t left (height left) least (ts ++ us ++ tail)).rest
      (link s' depth' u left' (height left') least (ts' ++ us' ++ tail')).rest := by
  obtain ⟨right, used, ws, heq, hws, hright, hadds⟩ :=
    link_written s depth t (height left) least hts hus htail hl
  have hcut := cutOffText_sound s' ((hts.alike hts').passed.append (hus.alike hus').passed) htail'
  have hle := hn.coarser.count_le
  have hbeyond : s'.maxDepth ≤ (depth' + height left' : Nat) := by
    rw [room_le_iff] at hd'
    omega
  obtain ⟨hvalue', hrest', -⟩ :=
    @link_beyond s' depth' _ _ u left' least (height left') hbeyond _ hcut
  have hzero : operatorCount? (some (.unknown (texts (ts' ++ us'))
    (current s' (ts' ++ us' ++ tail')).line)) = 0 := rfl
  rw [hvalue', hrest']
  refine .behind_adds hws ?_ ?_ (fun hnil heqcount => ?_) hadds
  · rw [Node.height_binary]
    omega
  · rw [operatorCount?_binary, operatorCount?_binary]
    omega
  · rw [operatorCount?_binary, operatorCount?_binary, hzero] at heqcount
    rw [hnil, List.append_nil] at heq
    have htexts : Text.folded (texts (ts ++ us)) = Text.folded (texts (ts' ++ us')) :=
      Sound.folded_texts_eq (List.rel_append hts' hus')
    rw [← heq] at htexts
    exact .binary htu.folded_eq (hn.coarser.matches_of_eq (by omega))
      (hright.matches (.unknown _ _) htexts (by omega) hzero)

end

mutual

/-- The tree that is read with less room has no more operators than the other, and the same flat
text if it has as many. -/
theorem value_nearly {depth depth' : Nat} (hroom : s'.room depth' ≤ s.room depth)
    {ts ts' us us' tail tail' : List Token} (hts : Sound.Operand ts) (hus : Operators us)
    (hts' : List.Forall₂ Token.Alike ts ts') (hus' : List.Forall₂ Token.Alike us us')
    (htail : Stops tail) (htail' : Stops tail') :
    Nearly (s'.room depth') (value s depth (ts ++ us ++ tail)).value
      (value s' depth' (ts' ++ us' ++ tail')).value := by
  have hend := (value_climbed s depth (ts ++ us ++ tail)).looser.noOperatorAhead
  have houtcome : Outcome tail tail' (s'.room depth') (value s depth (ts ++ us ++ tail)).value
      (value s' depth' (ts' ++ us' ++ tail')).value (value s depth (ts ++ us ++ tail)).rest
      (value s' depth' (ts' ++ us' ++ tail')).rest := by
    have hle := (operand s depth (ts ++ us ++ tail)).length_rest_le
    rw [value, value]
    dsimp only [Parsed.behind]
    refine (operand_outcome hroom hts hus hts' hus' htail htail').trans
      (fun hrest hrest' hl hws halike hn => ?_) (fun hrest hws hl => ?_) fun hrest' => ?_
    · rw [hrest, hrest']
      exact chain_outcome hroom hws halike htail htail' 0 hl hn
    · rw [hrest]
      exact chain_written s depth _ 0 hws htail hl
    · obtain ⟨hvalue, hrest, -⟩ := chain_stops s' depth'
        (operand s' depth' (ts' ++ us' ++ tail')).value
        (height (operand s' depth' (ts' ++ us' ++ tail')).value) 0 htail'
      rw [hrest']
      exact ⟨hvalue, hrest⟩
  exact houtcome.nearly hend
termination_by ((ts ++ us ++ tail).length, 4)
decreasing_by
  · exact Prod.Lex.right _ (by omega)
  · exact Prod.Lex.right' _ (by rwa [hrest] at hle) (by omega)

theorem chain_outcome {depth depth' : Nat} (hroom : s'.room depth' ≤ s.room depth)
    {us us' tail tail' : List Token} (hus : Operators us)
    (hus' : List.Forall₂ Token.Alike us us') (htail : Stops tail) (htail' : Stops tail')
    (least : Int) {left left' : Option Node} {before : List Token} (hl : Written left before)
    (hn : Nearly (s'.room depth') left left') :
    Outcome tail tail' (s'.room depth') (chain s depth left (height left) least (us ++ tail)).value
      (chain s' depth' left' (height left') least (us' ++ tail')).value
      (chain s depth left (height left) least (us ++ tail)).rest
      (chain s' depth' left' (height left') least (us' ++ tail')).rest := by
  match hus, hus' with
  | .nil, .nil =>
    obtain ⟨hvalue, hrest, -⟩ := chain_stops s depth left (height left) least htail
    obtain ⟨hvalue', hrest', -⟩ := chain_stops s' depth' left' (height left') least htail'
    rw [List.nil_append, List.nil_append, hvalue, hrest, hvalue', hrest']
    exact .abreast hl .nil .nil hn
  | @Operators.cons t ts us ht hts hmore, @List.Forall₂.cons _ _ _ _ u _ _ hu hrest =>
    obtain ⟨ts', us', rfl, hts', hus'⟩ := Sound.exists_append_of_alike hrest
    rw [List.cons_append, List.cons_append, chain, chain, hu.binds_eq]
    by_cases hb : binds t least = true
    · rw [if_pos hb, if_pos hb]
      exact link_outcome hroom hu hts hmore hts' hus' htail htail' least hl hn
    · rw [if_neg hb, if_neg hb]
      exact @Outcome.abreast _ _ _ _ _ _ (t :: (ts ++ us)) (u :: (ts' ++ us')) hl
        (.cons ht hts hmore) (.cons hu hrest) hn
termination_by ((us ++ tail).length, 3)
decreasing_by exact Prod.Lex.left _ _ (by simp)

/-- If the first reading of an operator is cut off, so is the second. -/
theorem link_outcome {depth depth' : Nat} (hroom : s'.room depth' ≤ s.room depth) {t u : Token}
    (htu : t.Alike u) {ts ts' us us' tail tail' : List Token} (hts : Sound.Operand ts)
    (hus : Operators us) (hts' : List.Forall₂ Token.Alike ts ts')
    (hus' : List.Forall₂ Token.Alike us us') (htail : Stops tail) (htail' : Stops tail')
    (least : Int) {left left' : Option Node} {before : List Token} (hl : Written left before)
    (hn : Nearly (s'.room depth') left left') :
    Outcome tail tail' (s'.room depth')
      (link s depth t left (height left) least (ts ++ us ++ tail)).value
      (link s' depth' u left' (height left') least (ts' ++ us' ++ tail')).value
      (link s depth t left (height left) least (ts ++ us ++ tail)).rest
      (link s' depth' u left' (height left') least (ts' ++ us' ++ tail')).rest := by
  by_cases hd' : s'.room depth' ≤ height left'
  · exact link_outcome_beyond s s' htu hts hus hts' hus' htail htail' least hl hn hd'
  · have hheight := hn.height
    have hd : ¬s.room depth ≤ height left := by omega
    have hle := (operand s depth (ts ++ us ++ tail)).length_rest_le
    have hright : Outcome tail tail' (s'.room depth')
        (tighten s depth (operand s depth (ts ++ us ++ tail)).value (precedence t.value)
          (operand s depth (ts ++ us ++ tail)).rest).value
        (tighten s' depth' (operand s' depth' (ts' ++ us' ++ tail')).value (precedence u.value)
          (operand s' depth' (ts' ++ us' ++ tail')).rest).value
        (tighten s depth (operand s depth (ts ++ us ++ tail)).value (precedence t.value)
          (operand s depth (ts ++ us ++ tail)).rest).rest
        (tighten s' depth' (operand s' depth' (ts' ++ us' ++ tail')).value (precedence u.value)
          (operand s' depth' (ts' ++ us' ++ tail')).rest).rest := by
      refine (operand_outcome hroom hts hus hts' hus' htail htail').trans
        (fun hrest hrest' hr hws halike hn => ?_) (fun hrest hws hr => ?_) fun hrest' => ?_
      · rw [hrest, hrest', htu.precedence_eq]
        exact tighten_outcome hroom hws halike htail htail' (precedence t.value) hr hn
      · rw [hrest]
        exact tighten_written s depth (precedence t.value) hws htail hr
      · obtain ⟨hvalue, hrest, -⟩ := tighten_stops s' depth'
          (operand s' depth' (ts' ++ us' ++ tail')).value (precedence u.value) htail'
        rw [hrest']
        exact ⟨hvalue, hrest⟩
    rw [link, link, if_neg (mt (room_le_iff s depth _).mpr hd),
      if_neg (mt (room_le_iff s' depth' _).mpr hd')]
    dsimp only [Parsed.behind]
    generalize tighten s depth (operand s depth (ts ++ us ++ tail)).value (precedence t.value)
      (operand s depth (ts ++ us ++ tail)).rest = right at hright ⊢
    generalize tighten s' depth' (operand s' depth' (ts' ++ us' ++ tail')).value
      (precedence u.value) (operand s' depth' (ts' ++ us' ++ tail')).rest = right' at hright ⊢
    have hle' := right.length_rest_le
    rw [← Node.height_binary t.value left right.value,
      ← Node.height_binary u.value left' right'.value]
    refine (hright.binary htu.folded_eq hl hn).trans
      (fun hbehind hbehind' hl hws halike hn => ?_) (fun hbehind hws hl => ?_) fun hbehind' => ?_
    · rw [hbehind, hbehind']
      exact chain_outcome hroom hws halike htail htail' least hl hn
    · rw [hbehind]
      exact chain_written s depth _ least hws htail hl
    · obtain ⟨hvalue, hrest, -⟩ := chain_stops s' depth'
        (some (.binary u.value left' right'.value))
        (height (some (.binary u.value left' right'.value))) least htail'
      rw [hbehind']
      exact ⟨hvalue, hrest⟩
termination_by ((ts ++ us ++ tail).length, 5)
decreasing_by
  · exact Prod.Lex.right _ (by omega)
  · exact Prod.Lex.right' _ (by rwa [hrest] at hle) (by omega)
  · refine Prod.Lex.right' _ ?_ (by omega)
    rw [hbehind] at hle'
    exact Nat.le_trans hle' hle

theorem tighten_outcome {depth depth' : Nat} (hroom : s'.room depth' ≤ s.room depth)
    {us us' tail tail' : List Token} (hus : Operators us)
    (hus' : List.Forall₂ Token.Alike us us') (htail : Stops tail) (htail' : Stops tail')
    (bound : Int) {right right' : Option Node} {before : List Token} (hr : Written right before)
    (hn : Nearly (s'.room depth') right right') :
    Outcome tail tail' (s'.room depth') (tighten s depth right bound (us ++ tail)).value
      (tighten s' depth' right' bound (us' ++ tail')).value
      (tighten s depth right bound (us ++ tail)).rest
      (tighten s' depth' right' bound (us' ++ tail')).rest := by
  match hus, hus' with
  | .nil, .nil =>
    obtain ⟨hvalue, hrest, -⟩ := tighten_stops s depth right bound htail
    obtain ⟨hvalue', hrest', -⟩ := tighten_stops s' depth' right' bound htail'
    rw [List.nil_append, List.nil_append, hvalue, hrest, hvalue', hrest']
    exact .abreast hr .nil .nil hn
  | @Operators.cons t ts us ht hts hmore, @List.Forall₂.cons _ _ _ _ u _ _ hu hrest =>
    obtain ⟨ts', us', rfl, hts', hus'⟩ := Sound.exists_append_of_alike hrest
    rw [List.cons_append, List.cons_append, tighten, tighten, hu.isOperator_eq, hu.precedence_eq]
    by_cases hb : (isOperator t && bound < (precedence t.value : Int)) = true
    · rw [if_pos hb, if_pos hb]
      have hle := (link s depth t right (height right) (precedence t.value)
        (ts ++ us ++ tail)).length_rest_le
      dsimp only [Parsed.behind, Parsed.behindToken]
      refine (link_outcome hroom hu hts hmore hts' hus' htail htail' (precedence t.value) hr
        hn).trans (fun hbehind hbehind' hl hws halike hn => ?_) (fun hbehind hws hl => ?_)
        fun hbehind' => ?_
      · rw [hbehind, hbehind']
        exact tighten_outcome hroom hws halike htail htail' bound hl hn
      · rw [hbehind]
        exact tighten_written s depth bound hws htail hl
      · obtain ⟨hvalue, hrest, -⟩ := tighten_stops s' depth'
          (link s' depth' u right' (height right') (precedence t.value)
            (ts' ++ us' ++ tail')).value bound htail'
        rw [hbehind']
        exact ⟨hvalue, hrest⟩
    · rw [if_neg hb, if_neg hb]
      exact @Outcome.abreast _ _ _ _ _ _ (t :: (ts ++ us)) (u :: (ts' ++ us')) hr
        (.cons ht hts hmore) (.cons hu hrest) hn
termination_by ((us ++ tail).length, 3)
decreasing_by
  · exact Prod.Lex.left _ _ (by simp)
  · rw [hbehind] at hle
    exact Prod.Lex.left _ _ (Nat.lt_succ_of_le hle)

theorem operand_outcome {depth depth' : Nat} (hroom : s'.room depth' ≤ s.room depth)
    {ts ts' us us' tail tail' : List Token} (hts : Sound.Operand ts) (hus : Operators us)
    (hts' : List.Forall₂ Token.Alike ts ts') (hus' : List.Forall₂ Token.Alike us us')
    (htail : Stops tail) (htail' : Stops tail') :
    Outcome tail tail' (s'.room depth') (operand s depth (ts ++ us ++ tail)).value
      (operand s' depth' (ts' ++ us' ++ tail')).value (operand s depth (ts ++ us ++ tail)).rest
      (operand s' depth' (ts' ++ us' ++ tail')).rest := by
  match hts, hts' with
  | @Sound.Operand.leaf t ht ho, @List.Forall₂.cons _ _ _ _ u _ _ hu .nil =>
    have hleaf := operand_leaf s depth ht (ne_openBracket_of_operators hus htail)
    have hleaf' := operand_leaf s' depth' (ht.alike hu)
      (ne_openBracket_of_operators (hus.alike hus') htail')
    show Outcome tail tail' (s'.room depth') (operand s depth (t :: (us ++ tail))).value
      (operand s' depth' (u :: (us' ++ tail'))).value (operand s depth (t :: (us ++ tail))).rest
      (operand s' depth' (u :: (us' ++ tail'))).rest
    rw [hleaf.value_eq, hleaf.rest_eq, hleaf'.value_eq, hleaf'.rest_eq]
    exact .abreast (leaf_written ht) hus hus' (leaf_nearly hu ht _)
  | @Sound.Operand.signed t ts ht ho, @List.Forall₂.cons _ _ _ _ u _ ts' hu hts' =>
    by_cases hd' : s'.room depth' = 0
    · exact operand_outcome_beyond s s' ht hu ho hus hts' hus' htail htail' hd'
    · have hwithin : (depth : Int) < s.maxDepth ∧ (depth' : Int) < s'.maxDepth := by
        unfold Setting.room at hroom hd'
        omega
      have hroom' : s'.room (depth' + 1) ≤ s.room (depth + 1) := by
        rw [room_succ, room_succ]
        omega
      have hinner := operand_outcome hroom' ho hus hts' hus' htail htail'
      rw [room_succ] at hinner
      show Outcome tail tail' (s'.room depth') (operand s depth (t :: (ts ++ us ++ tail))).value
        (operand s' depth' (u :: (ts' ++ us' ++ tail'))).value
        (operand s depth (t :: (ts ++ us ++ tail))).rest
        (operand s' depth' (u :: (ts' ++ us' ++ tail'))).rest
      rw [operand_within s hwithin.1 ht, operand_within s' hwithin.2 (hu.isSign_eq.trans ht)]
      exact hinner.unary hu.folded_eq
  | @Sound.Operand.call t ts ht hb, @List.Forall₂.cons _ _ _ _ u _ ts' hu hts' =>
    obtain ⟨v, more, rfl, hv⟩ := hb.exists_cons
    cases hts' with
    | @cons _ w _ more' hw hmore =>
      have hnearly := opened_nearly hroom hb hw hmore (us ++ tail) (us' ++ tail')
      obtain ⟨hrest, hn⟩ := opened_written s depth hb (us ++ tail)
      obtain ⟨hrest', -⟩ := opened_written s' depth' (hb.alike (.cons hw hmore)) (us' ++ tail')
      have hahead : t :: (v :: more) ++ us ++ tail = t :: v :: (more ++ (us ++ tail)) := by simp
      have hahead' : u :: (w :: more') ++ us' ++ tail' = u :: w :: (more' ++ (us' ++ tail')) := by
        simp
      have ht' : u.kind = .function := hu.kind_eq.trans ht
      rw [hahead, hahead', operand_call s depth ht hv,
        operand_call s' depth' ht' (hw.kind_eq.trans hv)]
      dsimp only [Parsed.behindToken, Parsed.map]
      rw [hrest, hrest']
      exact .abreast (hn.call t) hus hus' (hnearly.call hu.folded_eq)
  | @Sound.Operand.bracket ts hb, hts' =>
    obtain ⟨v, more, rfl, hv⟩ := hb.exists_cons
    cases hts' with
    | @cons _ w _ more' hw hmore =>
      have hnearly := opened_nearly hroom hb hw hmore (us ++ tail) (us' ++ tail')
      obtain ⟨hrest, hn⟩ := opened_written s depth hb (us ++ tail)
      obtain ⟨hrest', -⟩ := opened_written s' depth' (hb.alike (.cons hw hmore)) (us' ++ tail')
      have hahead : v :: more ++ us ++ tail = v :: (more ++ (us ++ tail)) := by simp
      have hahead' : w :: more' ++ us' ++ tail' = w :: (more' ++ (us' ++ tail')) := by simp
      have hv' : w.kind = .openBracket := hw.kind_eq.trans hv
      rw [hahead, hahead', operand_bracket s depth hv, operand_bracket s' depth' hv']
      dsimp only [Parsed.map]
      rw [hrest, hrest']
      exact .abreast hn hus hus' hnearly
termination_by ((ts ++ us ++ tail).length, 2)
decreasing_by
  all_goals subst_vars
  · exact Prod.Lex.left _ _ (by simp)
  · exact Prod.Lex.left _ _ (by simp)
  · exact Prod.Lex.right' _ (by simp) (by omega)

theorem opened_nearly {depth depth' : Nat} (hroom : s'.room depth' ≤ s.room depth) {t u : Token}
    {ts ts' : List Token} (h : Sound.Bracket (t :: ts)) (hu : t.Alike u)
    (halike : List.Forall₂ Token.Alike ts ts') (rest rest' : List Token) :
    Nearly (s'.room depth') (some (opened s depth t (ts ++ rest)).value)
      (some (opened s' depth' u (ts' ++ rest')).value) := by
  have h' := h.alike (.cons hu halike)
  by_cases hd' : s'.maxDepth ≤ depth'
  · obtain ⟨-, hn⟩ := opened_written s depth h rest
    have hgroup := groupText_sound h' rest'
    have hzero : s'.room depth' = 0 := by
      unfold Setting.room
      omega
    rw [List.cons_append] at hgroup
    rw [opened.eq_def s', if_pos hd', hzero]
    dsimp only [Parsed.withReport, bracketGroup, Parsed.map]
    rw [hgroup.value_eq]
    refine ⟨⟨Nat.zero_le _, fun hcount => ?_⟩, .inl (Nat.zero_le _)⟩
    exact hn.matches (.unknown _ _) (Sound.folded_texts_eq (.cons hu halike)) hcount.symm rfl
  · have hd : ¬s.maxDepth ≤ depth := by
      unfold Setting.room at hroom
      omega
    rw [opened, opened, if_neg hd, if_neg hd', enclosed, enclosed]
    match h, halike with
    | @Sound.Bracket.enclosed _ v ts us ht _ hv _ hts hus, halike =>
      obtain ⟨inner, last, rfl, hinner, hlast⟩ := Sound.exists_append_of_alike halike
      obtain ⟨ts', us', rfl, hts', hus'⟩ := Sound.exists_append_of_alike hinner
      cases hlast with
      | @cons _ w _ _ hw hnil =>
        cases hnil
        have hstops : ∀ {v : Token} (_ : v.kind = .closeBracket) (rest : List Token),
            Stops (v :: rest) := fun hv rest x hx => by
          obtain rfl := Option.some.inj hx
          exact .inl hv
        have hroom' : s'.room (depth' + 1) ≤ s.room (depth + 1) := by
          rw [room_succ, room_succ]
          omega
        have hnearly := value_nearly hroom' hts hus hts' hus' (hstops hv rest)
          (hstops (hw.kind_eq.trans hv) rest')
        rw [room_succ] at hnearly
        rw [List.append_assoc, List.append_assoc _ _ rest']
        exact hnearly.bracketed _ _
termination_by ((t :: ts ++ rest).length, 0)
decreasing_by exact Prod.Lex.left _ _ (by simp)

end

end Parse

end Gcode
