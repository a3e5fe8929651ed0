import Gcode.Proofs.Parse.Reading

/-!
# What an expression is read from

Whatever tokens are ahead, and whatever the limits are, the expression that is read stands for
the tokens that are taken. Text is cut off only where a limit is reported, and reaches no further
than to a bracket that closes one in front of it.

## Main statements

* `Parse.value_reads` — the value of an expression stands for the tokens it took.
* `Parse.optionalBracket_reads` — the same of an expression in brackets.
-/

namespace Gcode.Parse

open Reading (Expression AtLineEnd OnLine)
open Token (texts openings closings)

variable (s : Setting) {cut : Prop}

/-! ## The token at hand -/

@[simp] theorem current_cons (t : Token) (rest : List Token) : current s (t :: rest) = t := rfl

@[simp] theorem current_nil : current s [] = s.stop := rfl

/-- A token other than the end mark is the first of those ahead. -/
theorem eq_cons_of_current {ahead : List Token} {t : Token} (h : current s ahead = t)
    (ht : t.kind ≠ .endOfFile) : ∃ rest, ahead = t :: rest := by
  cases ahead with
  | nil =>
    subst h
    exact absurd rfl ht
  | cons u rest => exact ⟨rest, by rw [current_cons] at h; rw [h]⟩

theorem eq_cons_of_kind {ahead : List Token} {kind : TokenKind}
    (h : (current s ahead).kind = kind) (hk : kind ≠ .endOfFile) :
    ∃ t rest, ahead = t :: rest ∧ t.kind = kind := by
  obtain ⟨rest, hrest⟩ := eq_cons_of_current s rfl (t := current s ahead) (by rwa [h])
  exact ⟨_, rest, hrest, h⟩

theorem expect_cons_of_eq {kind : TokenKind} {t : Token} (ht : t.kind = kind)
    (rest : List Token) : expect s kind (t :: rest) = (advance s (t :: rest)).map some :=
  if_pos ht

/-! ## Runs of tokens that are kept as text -/

/-- The text is that of the tokens that were taken, among which no line ends. -/
def Takes {ahead : List Token} (p : Parsed Text ahead) : Prop :=
  ∃ used, ahead = used ++ p.rest ∧ p.value = texts used ∧ OnLine used

theorem takes_pure (ahead : List Token) : Takes (Parsed.pure [] ahead) :=
  ⟨[], rfl, rfl, by simp [OnLine]⟩

/-- A token that ends no line is taken together with what is taken behind it. -/
theorem Takes.cons {t : Token} (ht : t.kind ≠ .endOfLine) {rest : List Token}
    {p : Parsed Text rest} (h : Takes p) : Takes ((p.map (t.value ++ ·)).behindToken t) := by
  obtain ⟨used, hused, hvalue, hline⟩ := h
  refine ⟨t :: used, congrArg (t :: ·) hused, congrArg (t.value ++ ·) hvalue, ?_⟩
  intro u hu
  rcases List.mem_cons.mp hu with rfl | hu
  · exact ht
  · exact hline u hu

/-- What is kept of a line is taken, and the end of the line is left. -/
theorem restOfLine_takes (ahead : List Token) :
    Takes (restOfLine ahead) ∧ AtLineEnd (restOfLine ahead).rest := by
  induction ahead with
  | nil => exact ⟨takes_pure [], by simp [restOfLine, Parsed.pure, AtLineEnd]⟩
  | cons t rest ih =>
    unfold restOfLine
    by_cases h : t.kind = .endOfLine
    · rw [if_pos h]
      exact ⟨takes_pure _, by simpa [Parsed.pure, AtLineEnd] using h⟩
    · rw [if_neg h]
      exact ⟨ih.1.cons h, ih.2⟩

theorem restOfProgram_spec (ahead : List Token) :
    (restOfProgram ahead).value = texts ahead ∧ (restOfProgram ahead).rest = [] := by
  induction ahead with
  | nil => exact ⟨rfl, rfl⟩
  | cons t rest ih => exact ⟨congrArg (t.value ++ ·) ih.1, ih.2⟩

/-- The text is that of the tokens that were taken, among which no line ends, and `level` brackets
more are closed than opened at most. -/
def TakesWithin (level : Int) {ahead : List Token} (p : Parsed Text ahead) : Prop :=
  ∃ used, ahead = used ++ p.rest ∧ p.value = texts used ∧ OnLine used ∧
    closings used ≤ openings used + level

theorem takesWithin_pure {level : Int} (hlevel : 0 ≤ level) (ahead : List Token) :
    TakesWithin level (Parsed.pure [] ahead) :=
  ⟨[], rfl, rfl, by simp [OnLine], by simpa using hlevel⟩

section

variable {level : Int} {t : Token} {rest : List Token} {p : Parsed Text rest}

/-- A token that ends no line is taken together with what is taken behind it. -/
theorem TakesWithin.cons {level' : Int} (ht : t.kind ≠ .endOfLine) (h : TakesWithin level' p)
    (hcount : ∀ used, closings used ≤ openings used + level' →
      closings (t :: used) ≤ openings (t :: used) + level) :
    TakesWithin level ((p.map (t.value ++ ·)).behindToken t) := by
  obtain ⟨used, hused, hvalue, hline, hlevel⟩ := h
  exact ⟨t :: used, congrArg (t :: ·) hused, congrArg (t.value ++ ·) hvalue,
    List.forall_mem_cons.mpr ⟨ht, hline⟩, hcount used hlevel⟩

theorem TakesWithin.opening (ht : t.kind = .openBracket) (h : TakesWithin (level + 1) p) :
    TakesWithin level ((p.map (t.value ++ ·)).behindToken t) := by
  refine h.cons (by rw [ht]; decide) fun used hcount => ?_
  rw [Token.closings_cons, Token.openings_cons, if_neg (by rw [ht]; decide), if_pos ht]
  omega

theorem TakesWithin.closing (ht : t.kind = .closeBracket) (h : TakesWithin level p) :
    TakesWithin (level + 1) ((p.map (t.value ++ ·)).behindToken t) := by
  refine h.cons (by rw [ht]; decide) fun used hcount => ?_
  rw [Token.closings_cons, Token.openings_cons, if_pos ht, if_neg (by rw [ht]; decide)]
  omega

theorem TakesWithin.other (ht : t.kind ≠ .endOfLine) (hopen : t.kind ≠ .openBracket)
    (hclose : t.kind ≠ .closeBracket) (h : TakesWithin level p) :
    TakesWithin level ((p.map (t.value ++ ·)).behindToken t) := by
  refine h.cons ht fun used hcount => ?_
  rw [Token.closings_cons, Token.openings_cons, if_neg hclose, if_neg hopen]
  exact hcount

end

theorem cutOffText_takes (level : Nat) (ahead : List Token) :
    TakesWithin level (cutOffText s level ahead) := by
  induction ahead generalizing level with
  | nil => exact takesWithin_pure (Int.natCast_nonneg level) []
  | cons t rest ih =>
    unfold cutOffText
    split
    case isTrue => exact takesWithin_pure (Int.natCast_nonneg level) _
    case isFalse h =>
      have ht : t.kind ≠ .endOfLine := by
        intro hk
        exact h (by simp [endsCommands, hk])
      by_cases hopen : t.kind = .openBracket
      · simp only [if_pos hopen]
        exact (ih (level + 1)).opening hopen
      · simp only [if_neg hopen]
        by_cases hclose : t.kind = .closeBracket
        · simp only [if_pos hclose]
          cases level with
          | zero => exact absurd (by simp [hclose]) h
          | succ level => exact (ih level).closing hclose
        · simp only [if_neg hclose]
          exact (ih level).other ht hopen hclose

/-- The text of a group takes brackets up to the one that closes those that are open. -/
theorem groupText_takes {level : Int} (hlevel : 0 < level) (ahead : List Token) :
    TakesWithin level (groupText level ahead) := by
  induction ahead generalizing level with
  | nil => exact takesWithin_pure (Int.le_of_lt hlevel) []
  | cons t rest ih =>
    unfold groupText
    by_cases hk : t.kind = .endOfLine
    · rw [if_pos hk]
      exact takesWithin_pure (Int.le_of_lt hlevel) _
    · rw [if_neg hk]
      split
      case isTrue hopen => exact (@ih (level + 1) (by omega)).opening hopen
      case isFalse hopen =>
      split
      case isTrue hclose =>
        split
        case isTrue hone =>
          have hlast := (takesWithin_pure (Int.le_refl 0) rest).closing hclose
          rw [Parsed.map, Parsed.pure, List.append_nil] at hlast
          rw [hone]
          exact hlast
        case isFalse hone =>
          have hmore := (@ih (level - 1) (by omega)).closing hclose
          rwa [Int.sub_add_cancel] at hmore
      case isFalse hclose => exact (ih hlevel).other hk hopen hclose

/-- A group of brackets closes no bracket but its own. -/
theorem bracketGroup_takes {t : Token} (ht : t.kind = .openBracket) (rest : List Token) :
    TakesWithin 0 (groupText 0 (t :: rest)) := by
  rw [groupText, if_neg (by rw [ht]; decide), if_pos ht]
  exact (groupText_takes (by decide) rest).opening ht

/-- Text that was read already may be cut off together with what is taken behind it. -/
theorem cutOff_reads (hcut : cut) {front ahead : List Token} (hfront : OnLine front)
    (hcount : closings front ≤ openings front) {p : Parsed Text ahead} (h : TakesWithin 0 p)
    (line : Int) :
    Expression cut (some (.unknown (texts front ++ p.value) line)) (front ++ ahead) p.rest := by
  obtain ⟨used, hused, hvalue, hline, hcount'⟩ := h
  rw [hvalue, ← Token.texts_append]
  refine .cutOff line hcut ?_ ?_ ?_
  · rw [List.append_assoc, ← hused]
  · exact fun t ht => (List.mem_append.mp ht).elim (hfront t) (hline t)
  · rw [Token.closings_append, Token.openings_append]
    omega

theorem onLine_nil : OnLine [] := by simp [OnLine]

/-! ## Signs -/

theorem signs_eq (ahead : List Token) :
    (signs ahead).value = (ahead.takeWhile isSign).map Token.value ∧
      (signs ahead).rest = ahead.dropWhile isSign ∧ (signs ahead).reports = [] := by
  induction ahead with
  | nil => exact ⟨rfl, rfl, rfl⟩
  | cons t rest ih =>
    unfold signs
    cases h : isSign t with
    | true =>
      simp only [if_true, List.takeWhile_cons, List.dropWhile_cons, h]
      exact ⟨congrArg (t.value :: ·) ih.1, ih.2⟩
    | false =>
      simp only [Bool.false_eq_true, if_false, List.takeWhile_cons, List.dropWhile_cons, h]
      exact ⟨rfl, rfl, rfl⟩

theorem isOperator_of_isSign {t : Token} (h : isSign t = true) : isOperator t = true := by
  simp only [isSign, Bool.and_eq_true, decide_eq_true_eq] at h
  simp [isOperator, h.1]

/-- Signs in front of an operand, of which the first `n` are taken, stand for their tokens. -/
theorem withSigns_reads {operand : Option Node} {rest : List Token} (n : Nat)
    (ahead : List Token) (h : Expression cut operand (((ahead.takeWhile isSign).drop n) ++
      ahead.dropWhile isSign) rest) :
    Expression cut (withSigns (((ahead.takeWhile isSign).map Token.value).take n) operand)
      ahead rest := by
  induction ahead generalizing n with
  | nil => simpa [withSigns] using h
  | cons t ahead ih =>
    cases hs : isSign t with
    | false => simpa [hs, withSigns] using h
    | true =>
      cases n with
      | zero => simpa [hs, withSigns, List.takeWhile_append_dropWhile] using h
      | succ n =>
        simp only [List.takeWhile_cons, List.dropWhile_cons, hs, if_true, List.drop_succ_cons] at h
        simp only [List.takeWhile_cons, hs, if_true, List.map_cons, List.take_succ_cons, withSigns,
          List.foldr_cons]
        exact .unary (isOperator_of_isSign hs) (ih n h)

/-! ## Expressions -/

mutual

/-- An expression stands for the tokens it took. -/
theorem value_reads (depth : Nat) (ahead : List Token)
    (hc : Guarded (value s depth ahead).reports → cut) :
    Expression cut (value s depth ahead).value ahead (value s depth ahead).rest := by
  rw [value] at hc ⊢
  dsimp only [Parsed.behind] at hc ⊢
  rw [guarded_append] at hc
  have hleft := operand_reads depth ahead fun h => hc (.inl h)
  exact chain_reads depth _ _ 0 hleft fun h => hc (.inr h)
termination_by (ahead.length, 4)
decreasing_by
  · exact Prod.Lex.right _ (by omega)
  · exact Prod.Lex.right' _ (Parsed.length_rest_le _) (by omega)

/-- The operators behind an operand carry on what the operand stands for. -/
theorem chain_reads (depth : Nat) (left : Option Node) (height : Nat) (least : Int)
    {before ahead : List Token} (hl : Expression cut left before ahead)
    (hc : Guarded (chain s depth left height least ahead).reports → cut) :
    Expression cut (chain s depth left height least ahead).value before
      (chain s depth left height least ahead).rest := by
  match ahead with
  | [] =>
    rw [chain]
    exact hl
  | t :: rest =>
    rw [chain] at hc ⊢
    by_cases hb : binds t least = true
    · rw [if_pos hb] at hc ⊢
      have ho : isOperator t = true := by
        rw [binds, Bool.and_eq_true] at hb
        exact hb.1
      exact link_reads depth ho height least hl hc
    · rw [if_neg hb]
      exact hl
termination_by (ahead.length, 3)
decreasing_by exact Prod.Lex.left _ _ (by simp)

/-- An operator and what stands behind it carry on what the left operand stands for. -/
theorem link_reads (depth : Nat) {t : Token} (ho : isOperator t = true) {left : Option Node}
    (height : Nat) (least : Int) {before ahead : List Token}
    (hl : Expression cut left before (t :: ahead))
    (hc : Guarded (link s depth t left height least ahead).reports → cut) :
    Expression cut (link s depth t left height least ahead).value before
      (link s depth t left height least ahead).rest := by
  rw [link] at hc ⊢
  by_cases hd : s.maxDepth ≤ depth + height
  · rw [if_pos hd] at hc ⊢
    have hcut : cut := hc ⟨_, List.mem_cons_self, rfl⟩
    exact .binary ho hl
      (cutOff_reads hcut onLine_nil (Nat.le_refl 0) (cutOffText_takes s 0 ahead) _)
  · rw [if_neg hd] at hc ⊢
    dsimp only [Parsed.behind] at hc ⊢
    simp only [guarded_append] at hc
    have hfirst := operand_reads depth ahead fun h => hc (.inl (.inl h))
    have hright := tighten_reads depth _ (Keyword.precedence t.value) hfirst
      fun h => hc (.inl (.inr h))
    exact chain_reads depth _ _ least (.binary ho hl hright) fun h => hc (.inr h)
termination_by (ahead.length, 5)
decreasing_by
  · exact Prod.Lex.right _ (by omega)
  · exact Prod.Lex.right' _ (Parsed.length_rest_le _) (by omega)
  · refine Prod.Lex.right' _ ?_ (by omega)
    exact Nat.le_trans (Parsed.length_rest_le _) (Parsed.length_rest_le _)

/-- The operators that bind tighter carry on what the operand stands for. -/
theorem tighten_reads (depth : Nat) (right : Option Node) (bound : Int)
    {before ahead : List Token} (hr : Expression cut right before ahead)
    (hc : Guarded (tighten s depth right bound ahead).reports → cut) :
    Expression cut (tighten s depth right bound ahead).value before
      (tighten s depth right bound ahead).rest := by
  match ahead with
  | [] =>
    rw [tighten]
    exact hr
  | t :: rest =>
    rw [tighten] at hc ⊢
    by_cases hb : (isOperator t && bound < (Keyword.precedence t.value : Int)) = true
    · rw [if_pos hb] at hc ⊢
      dsimp only [Parsed.behind, Parsed.behindToken] at hc ⊢
      rw [guarded_append] at hc
      rw [Bool.and_eq_true] at hb
      have htighter := link_reads depth hb.1 (Node.height right) (Keyword.precedence t.value) hr
        fun h => hc (.inl h)
      exact tighten_reads depth _ bound htighter fun h => hc (.inr h)
    · rw [if_neg hb]
      exact hr
termination_by (ahead.length, 3)
decreasing_by
  · exact Prod.Lex.left _ _ (by simp)
  · refine Prod.Lex.left _ _ ?_
    exact Nat.lt_succ_of_le (Parsed.length_rest_le _)

/-- An operand with its signs stands for the tokens it took. -/
theorem operand_reads (depth : Nat) (ahead : List Token)
    (hc : Guarded (operand s depth ahead).reports → cut) :
    Expression cut (operand s depth ahead).value ahead (operand s depth ahead).rest := by
  rw [operand] at hc ⊢
  obtain ⟨hvalue, hrest, -⟩ := signs_eq ahead
  by_cases hroom : (s.maxDepth - depth).toNat < (signs ahead).value.length
  · simp only [if_pos hroom] at hc ⊢
    dsimp only [Parsed.behind, Parsed.withReport, Parsed.map] at hc ⊢
    have hcut : cut := by
      refine hc ?_
      rw [guarded_append, guarded_cons]
      exact .inr (.inl rfl)
    rw [hvalue]
    refine withSigns_reads _ ahead ?_
    rw [← hrest, ← List.map_drop]
    have hsigns : ∀ t ∈ (ahead.takeWhile isSign).drop (s.maxDepth - depth).toNat,
        t.kind = .operator := by
      intro t ht
      have hsign := List.all_eq_true.mp List.all_takeWhile t (List.mem_of_mem_drop ht)
      simp only [isSign, Bool.and_eq_true, decide_eq_true_eq] at hsign
      exact hsign.1
    refine cutOff_reads hcut (fun t ht => by rw [hsigns t ht]; decide) ?_
      (cutOffText_takes s 0 (signs ahead).rest) _
    rw [closings, List.countP_eq_zero.mpr fun t ht => by simp [hsigns t ht]]
    exact Nat.zero_le _
  · simp only [if_neg hroom] at hc ⊢
    dsimp only [Parsed.behind, Parsed.map] at hc ⊢
    rw [guarded_append] at hc
    have hprimary := primary_reads (depth + (signs ahead).value.length) (signs ahead).rest
      fun h => hc (.inr h)
    rw [hrest] at hprimary
    have hall := withSigns_reads (ahead.takeWhile isSign).length ahead (by
      rw [List.drop_length, List.nil_append]
      exact hprimary)
    rw [← hrest] at hall
    rw [← List.length_map (f := Token.value), List.take_length, ← hvalue] at hall
    exact hall
termination_by (ahead.length, 2)
decreasing_by exact Prod.Lex.right' _ (Parsed.length_rest_le _) (by omega)

/-- An operand without signs stands for the tokens it took. -/
theorem primary_reads (depth : Nat) (ahead : List Token)
    (hc : Guarded (primary s depth ahead).reports → cut) :
    Expression cut (primary s depth ahead).value ahead (primary s depth ahead).rest := by
  match ahead with
  | [] =>
    rw [primary]
    exact .missing []
  | t :: rest =>
    unfold primary at hc ⊢
    revert hc
    split
    case h_1 hk => exact fun _ => .number rest hk
    case h_2 hk => exact fun _ => .parameter rest hk
    case h_3 hk => exact fun hc => opened_reads depth hk rest hc
    case h_4 hk =>
      intro hc
      cases hr : rest with
      | nil => exact .call hk (.missing [])
      | cons u more =>
        rw [hr] at hc
        dsimp only at hc ⊢
        by_cases hu : u.kind = .openBracket
        · rw [if_pos hu] at hc ⊢
          exact .call hk (opened_reads depth hu more hc)
        · rw [if_neg hu]
          exact .call hk (.missing (u :: more))
    case h_5 hk => exact fun _ => .word hk (.missing rest)
    case h_6 => exact fun _ => .missing (t :: rest)
termination_by (ahead.length, 1)
decreasing_by
  · exact Prod.Lex.right _ (by omega)
  · exact Prod.Lex.left _ _ (by simp [hr])

/-- What begins with an opening bracket stands for the tokens it took. -/
theorem opened_reads (depth : Nat) {t : Token} (ht : t.kind = .openBracket) (rest : List Token)
    (hc : Guarded (opened s depth t rest).reports → cut) :
    Expression cut (some (opened s depth t rest).value) (t :: rest)
      (opened s depth t rest).rest := by
  rw [opened] at hc ⊢
  by_cases hd : s.maxDepth ≤ depth
  · rw [if_pos hd] at hc ⊢
    have hcut : cut := hc ⟨_, List.mem_cons_self, rfl⟩
    exact cutOff_reads hcut onLine_nil (Nat.le_refl 0) (bracketGroup_takes ht rest) _
  · rw [if_neg hd] at hc ⊢
    exact enclosed_reads depth ht rest hc
termination_by (rest.length + 1, 0)
decreasing_by exact Prod.Lex.left _ _ (by simp)

/-- What stands behind an opening bracket, together with it, stands for the tokens it took. -/
theorem enclosed_reads (depth : Nat) {t : Token} (ht : t.kind = .openBracket)
    (ahead : List Token) (hc : Guarded (enclosed s depth ahead).reports → cut) :
    Expression cut (some (enclosed s depth ahead).value) (t :: ahead)
      (enclosed s depth ahead).rest := by
  rw [enclosed] at hc ⊢
  dsimp only [Parsed.behind, Parsed.map] at hc ⊢
  rw [guarded_append] at hc
  have hinner := value_reads (depth + 1) ahead fun h => hc (.inl h)
  generalize (value s (depth + 1) ahead).rest = rest at hinner ⊢
  unfold expect
  dsimp only
  by_cases hk : (current s rest).kind = .closeBracket
  · obtain ⟨u, rest, rfl, hu⟩ := eq_cons_of_kind s hk (by decide)
    rw [if_pos hk]
    exact .closed ht hu hinner
  · rw [if_neg hk]
    refine .unclosed ht (fun u (hu : rest.head? = some u) => ?_) hinner
    rwa [current, List.headD_eq_head?_getD, hu] at hk
termination_by (ahead.length, 5)
decreasing_by exact Prod.Lex.right _ (by omega)

end

/-! ## Expressions read without a look at the token at hand -/

/-- An expression in brackets stands for the tokens it took. -/
theorem bracketed_reads (depth : Nat) {ahead : List Token}
    (hk : (current s ahead).kind = .openBracket)
    (hc : Guarded (bracketed s depth ahead).reports → cut) :
    Expression cut (some (bracketed s depth ahead).value) ahead
      (bracketed s depth ahead).rest := by
  obtain ⟨t, rest, rfl, ht⟩ := eq_cons_of_kind s hk (by decide)
  rw [← opened_eq_bracketed s depth ht] at hc ⊢
  exact opened_reads s depth ht rest hc

/-- The opening bracket is taken, whatever is behind it. -/
theorem bracketed_suffix (depth : Nat) {t : Token} (ht : t.kind = .openBracket)
    (rest : List Token) : (bracketed s depth (t :: rest)).rest <:+ rest := by
  rw [← opened_eq_bracketed s depth ht, opened]
  split
  · have hgroup : groupText 0 (t :: rest) =
        ((groupText (0 + 1) rest).map (t.value ++ ·)).behindToken t := by
      rw [groupText, if_neg (by rw [ht]; decide), if_pos ht]
    dsimp only [Parsed.withReport, bracketGroup, Parsed.map]
    rw [hgroup]
    exact (groupText (0 + 1) rest).suffix
  · exact (enclosed s depth rest).suffix

theorem optionalBracket_reads (depth : Nat) (ahead : List Token)
    (hc : Guarded (optionalBracket s depth ahead).reports → cut) :
    Expression cut (optionalBracket s depth ahead).value ahead
      (optionalBracket s depth ahead).rest := by
  unfold optionalBracket at hc ⊢
  by_cases hk : (current s ahead).kind = .openBracket
  · rw [if_pos hk] at hc ⊢
    exact bracketed_reads s depth hk hc
  · rw [if_neg hk]
    exact .missing ahead

/-- A property of all that is read where a bracket opens is one of an optional expression in
brackets, if it holds of none. -/
theorem optionalBracket_holds {P : Option Node → Prop} {depth : Nat} (hnone : P none)
    (hopened : ∀ t rest, P (some (opened s depth t rest).value)) (ahead : List Token) :
    P (optionalBracket s depth ahead).value := by
  unfold optionalBracket
  split
  case isTrue hk =>
    obtain ⟨t, rest, rfl, ht⟩ := eq_cons_of_kind s hk (by decide)
    rw [← opened_eq_bracketed s depth ht]
    exact hopened t rest
  case isFalse => exact hnone

theorem functionCall_reads (depth : Nat) {t : Token} (ht : t.kind = .function)
    (rest : List Token) (hc : Guarded (functionCall s depth (t :: rest)).reports → cut) :
    Expression cut (some (functionCall s depth (t :: rest)).value) (t :: rest)
      (functionCall s depth (t :: rest)).rest :=
  .call ht (optionalBracket_reads s depth rest hc)

end Gcode.Parse
