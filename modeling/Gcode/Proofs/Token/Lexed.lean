import Gcode.Proofs.Token.Shape

/-!
# Running the lexer

The lexer reads every program to its end. The tokens hold the program, each character once and in
order, and each of them looks as its class says.

## Main definitions

* `Lexed` — what the tokens of a program look like, one behind the other.
* `Lexer.Reads` — what reading at the cursor can give.
* `Lexer.Hands` — what the lexer hands out of the text ahead.

## Main statements

* `Lexer.Meets.finds` — what the lexer finds at the cursor is a token as its class says.
* `Lexer.read_reads` — reading succeeds wherever the cursor stands.
* `Lexer.run_eq_ok` — running the lexer succeeds, and its tokens hold what was ahead of it.
-/

namespace Gcode

/-- What the tokens of a program look like, one behind the other. -/
inductive Lexed : List Token → Prop
  | nil : Lexed []
  | cons {t : Token} {ts : List Token} : Token.Shape t.kind t.value → t.Ends (Token.texts ts) →
    Lexed ts → Lexed (t :: ts)

namespace Lexer

/-- The text ahead of the lexer: that of the tokens that wait, and what the cursor has ahead. -/
def ahead (l : Lexer) : Text := Token.texts l.queue ++ l.cursor.rest

/-- All that wait are pieces of a run of letters. -/
def Queued (l : Lexer) : Prop := ∀ t ∈ l.queue, t.IsPiece

/-- What `t` is to the text that was ahead before it: the end mark if there was none, else the
beginning of it. -/
inductive Hands : Text → Token → Lexer → Prop
  | stop {t : Token} {l : Lexer} : t.kind = .endOfFile → t.value = [] → Hands [] t l
  | token {t : Token} {l : Lexer} : Token.Shape t.kind t.value → t.Ends l.ahead → l.Queued →
    Hands (t.value ++ l.ahead) t l

theorem hands_accept {l : Lexer} (hq : l.queue = []) {s : Scanned}
    (h : Scan.Finds l.cursor s) : Hands l.ahead (l.accept s).1 (l.accept s).2 := by
  have hahead : l.ahead = (l.accept s).1.value ++ (l.accept s).2.ahead := by
    have hcovers : l.cursor.rest = s.token.value ++ s.cursor.rest := h.covers
    simpa [ahead, accept, hq] using hcovers
  have hrest : (l.accept s).2.ahead = s.cursor.rest := by simp [ahead, accept, hq]
  rw [hahead]
  refine .token h.shape ?_ ?_
  · rw [hrest]
    exact h.ends
  · simp [Queued, accept, hq]

/-- The lexer behind a run of letters, of which the pieces but the first wait. -/
def behindLetters (l : Lexer) (tokens : List Token) : Lexer :=
  { l with cursor := (Scan.letters l.cursor).2, queue := l.queue ++ tokens }

/-- What reading at the cursor can give: the end mark, what a scan found, or the first piece of a
run of letters. -/
inductive Reads (l : Lexer) : Token → Lexer → Prop
  | stop : l.cursor.rest = [] → Reads l ⟨.endOfFile, [], l.cursor.line⟩ l
  | scan {s : Scanned} {n : Nat} : Scan.Finds l.cursor s → Scan.Stands l.cursor s →
    Reads l s.token (accept { l with openBrackets := n } s).2
  | letters {t : Token} {ts : List Token} :
    Token.segment l.cursor.line (l.cursor.rest.takeWhile Scan.isWordChar) = t :: ts →
    Reads l t (l.behindLetters ts)

/-- What the lexer meets is a token as its class says, and stands where the cursor does. -/
theorem Meets.finds {l : Lexer} {s : Scanned} {n : Nat} (h : l.Meets s n) :
    Scan.Finds l.cursor s := by
  cases h with
  | lineBreak hr hb => exact Scan.finds_lineBreak hr hb _
  | comment hr hc hs =>
    obtain ⟨found, hfound, hf⟩ := Scan.finds_comment hr hc l.cursor.line
    obtain rfl := Except.ok.inj (hs.symm.trans hfound)
    exact hf
  | number hr hc => exact Scan.finds_number hr hc _
  | parameter hr hc hs =>
    obtain ⟨found, hfound, hf⟩ := Scan.finds_parameter hr hc l.cursor.line
    obtain rfl := Except.ok.inj (hs.symm.trans hfound)
    exact hf
  | assign hr => exact Scan.finds_char _ hr .assign (by simp [Text.Crisp]; decide)
  | openBracket hr => exact Scan.finds_char _ hr .openBracket (by simp [Text.Crisp]; decide)
  | closeBracket hr => exact Scan.finds_char _ hr .closeBracket (by simp [Text.Crisp]; decide)
  | operator hr hs =>
    rcases Scan.finds_operator hr l.cursor.line with hnone | ⟨found, hfound, hf⟩
    · cases hs.symm.trans hnone
    · cases hs.symm.trans hfound
      exact hf
  | blanks hr hb => exact Scan.finds_blanks hr hb _
  | stray hr hbreak hblank hsemicolon hparen =>
    exact Scan.finds_stray hr hbreak hblank hsemicolon hparen _

theorem Meets.stands {l : Lexer} {s : Scanned} {n : Nat} (h : l.Meets s n) :
    Scan.Stands l.cursor s := by
  cases h with
  | lineBreak hr => exact ⟨rfl, rfl, fun _ => by rw [hr]; rfl⟩
  | comment _ _ hs => exact Scan.stands_comment hs
  | number => exact Scan.stands_number _
  | parameter _ _ hs => exact Scan.stands_parameter hs
  | assign | openBracket | closeBracket | blanks | stray =>
    exact Scan.stands_found _ (by decide) _
  | operator _ hs => exact Scan.stands_operator hs

/-- No scan runs off the end of the text. -/
theorem exists_read_eq (l : Lexer) : ∃ found, l.read = .ok found := by
  unfold read
  dsimp only
  cases hr : l.cursor.rest with
  | nil => exact ⟨_, rfl⟩
  | cons ch rest =>
    dsimp only
    split
    case isTrue => exact ⟨_, rfl⟩
    split
    case isTrue hc =>
      simp only [Bool.or_eq_true, decide_eq_true_eq] at hc
      obtain ⟨s, hs, -⟩ := Scan.finds_comment hr hc l.cursor.line
      exact ⟨l.accept s, by rw [hs]; rfl⟩
    split
    case isTrue => exact ⟨_, rfl⟩
    split
    case isTrue hc =>
      simp only [Bool.or_eq_true, decide_eq_true_eq] at hc
      obtain ⟨s, hs, -⟩ := Scan.finds_parameter hr hc l.cursor.line
      exact ⟨l.accept s, by rw [hs]; rfl⟩
    split
    case isTrue => exact ⟨_, rfl⟩
    split
    case isTrue => exact ⟨_, rfl⟩
    split
    case isTrue => exact ⟨_, rfl⟩
    rcases Scan.finds_operator hr l.cursor.line with ho | ⟨s, ho, -⟩
    · rw [ho]
      dsimp only
      split
      · exact ⟨_, rfl⟩
      · split <;> exact ⟨_, rfl⟩
    · rw [ho]
      exact ⟨_, rfl⟩

/-- What was read is one of the things that reading can give. -/
theorem reads_of_read {l l' : Lexer} {t : Token} (h : l.read = .ok (t, l')) : Reads l t l' := by
  obtain ⟨hr, rfl, rfl⟩ | ⟨s, n, hmeets, heq⟩ | ⟨ts, hs, rfl⟩ := read_eq_ok h
  · exact .stop hr
  · cases heq
    exact .scan hmeets.finds hmeets.stands
  · exact .letters hs

/-- Reading succeeds. -/
theorem read_reads (l : Lexer) : ∃ t l', l.read = .ok (t, l') ∧ Reads l t l' := by
  obtain ⟨⟨t, l'⟩, hread⟩ := exists_read_eq l
  exact ⟨t, l', hread, reads_of_read hread⟩

theorem isPiece_of_letters {l : Lexer} {t : Token} {ts : List Token}
    (hs : Token.segment l.cursor.line (l.cursor.rest.takeWhile Scan.isWordChar) = t :: ts) :
    t.IsPiece := by
  have hmem : t ∈ Token.segment l.cursor.line (l.cursor.rest.takeWhile Scan.isWordChar) := by
    rw [hs]
    exact List.mem_cons_self
  exact Token.isPiece_of_mem_segment (fun c hc => Scan.of_mem_takeWhile hc) hmem

/-- A run of letters is cut into pieces. The first is handed out, the others wait. -/
theorem letters_hands {l : Lexer} (hq : l.queue = []) {t : Token} {ts : List Token}
    (hs : Token.segment l.cursor.line (l.cursor.rest.takeWhile Scan.isWordChar) = t :: ts) :
    Hands l.ahead t (l.behindLetters ts) := by
  have hpieces : ∀ u ∈ t :: ts, u.IsPiece := by
    rw [← hs]
    exact fun u hu => Token.isPiece_of_mem_segment (fun c hc => Scan.of_mem_takeWhile hc) hu
  have ht := hpieces t List.mem_cons_self
  have htexts : Token.texts (t :: ts) = l.cursor.rest.takeWhile Scan.isWordChar := by
    rw [← hs]
    exact Token.flatMap_segment _ _
  have hrest : (Scan.letters l.cursor).2.rest = l.cursor.rest.dropWhile Scan.isWordChar := by
    rw [Scan.letters, Cursor.rest_skip, Scan.drop_takeWhile]
  have hahead : l.ahead = t.value ++ (l.behindLetters ts).ahead := by
    simp only [ahead, behindLetters, hq, hrest, List.nil_append, Token.texts_nil]
    rw [← List.append_assoc, ← Token.texts_cons, htexts, List.takeWhile_append_dropWhile]
  rw [hahead]
  refine .token (.letters ht.kind ht.ne_nil ht.letters) (Scan.ends_of_crisp ht.crisp _) ?_
  intro u hu
  rw [behindLetters, hq, List.nil_append] at hu
  exact hpieces u (List.mem_cons_of_mem t hu)

/-- What is read is the beginning of what is ahead. -/
theorem Reads.hands {l l' : Lexer} {t : Token} (h : Reads l t l') (hq : l.queue = []) :
    Hands l.ahead t l' := by
  cases h with
  | stop hr =>
    have hahead : l.ahead = [] := by simp [ahead, hq, hr]
    rw [hahead]
    exact .stop rfl rfl
  | @scan s n hf _ => exact hands_accept (l := { l with openBrackets := n }) hq hf
  | letters hs => exact letters_hands hq hs

/-- Handing out the pieces of a token hands out the text of the token. -/
theorem hands_handOut {text : Text} {t : Token} {l : Lexer} (h : Hands text t l) :
    Hands text (l.handOut t).1 (l.handOut t).2 := by
  cases h with
  | stop hk hv =>
    have hkind : t.kind ≠ .function := by rw [hk]; decide
    simp only [handOut, Token.refine_of_kind_ne hkind]
    exact .stop hk hv
  | token hshape hends hq =>
    by_cases hkind : t.kind = .function
    · have hpiece : t.IsPiece := by
        rw [hkind] at hshape
        cases hshape with
        | letters _ hne hl => exact ⟨by rw [hkind]; decide, hne, hl⟩
        | sign hk => simp [TokenKind.ofSigns] at hk
      obtain ⟨hfirst, hsecond⟩ := Token.isPiece_refine hpiece l.previous
      have hahead : t.value ++ l.ahead = (l.handOut t).1.value ++ (l.handOut t).2.ahead := by
        rw [← Token.texts_refine t l.previous]
        simp only [ahead, handOut, Token.texts_append, List.append_assoc]
      rw [hahead]
      refine .token (.letters hfirst.kind hfirst.ne_nil hfirst.letters)
        (Scan.ends_of_crisp hfirst.crisp _) ?_
      intro u hu
      simp only [handOut, List.mem_append, Option.mem_toList] at hu
      rcases hu with hu | hu
      · exact hsecond u hu
      · exact hq u hu
    · simp only [handOut, Token.refine_of_kind_ne hkind]
      exact .token (l := { l with queue := l.queue, previous := some t.kind }) hshape hends hq

/-- The next token is there, and is what is ahead. -/
theorem next_hands {l : Lexer} (hq : l.Queued) :
    ∃ t l', l.next = .ok (t, l') ∧ Hands l.ahead t l' := by
  have handed : ∀ t l', Hands l.ahead t l' → ∃ u l'',
      (Except.ok (handOut l' t) : Except Cursor.EndOfSource _) = .ok (u, l'') ∧
        Hands l.ahead u l'' := fun t l' h => ⟨_, _, rfl, hands_handOut h⟩
  unfold next pull
  cases hqueue : l.queue with
  | nil =>
    obtain ⟨t, l', hread, h⟩ := read_reads l
    rw [hread]
    exact handed t l' (h.hands hqueue)
  | cons t ts =>
    have hpiece : t.IsPiece := hq t (by simp [hqueue])
    have hahead : l.ahead = t.value ++ ahead { l with queue := ts } := by
      simp [ahead, hqueue]
    refine handed t { l with queue := ts } ?_
    rw [hahead]
    refine .token (.letters hpiece.kind hpiece.ne_nil hpiece.letters)
      (Scan.ends_of_crisp hpiece.crisp _) ?_
    exact fun u hu => hq u (by simp [hqueue, hu])

/-- What was handed out is the beginning of what was ahead. -/
theorem hands_of_next {l l' : Lexer} {t : Token} (hq : l.Queued) (h : l.next = .ok (t, l')) :
    Hands l.ahead t l' := by
  obtain ⟨u, l'', hnext, hands⟩ := next_hands hq
  obtain ⟨rfl, rfl⟩ : t = u ∧ l' = l'' := by simpa [h] using hnext
  exact hands

/-- The end mark is pulled only where nothing waits. -/
theorem pull_stop {l l' : Lexer} {t : Token} (hq : l.Queued) (h : l.pull = .ok (t, l'))
    (ht : t.kind = .endOfFile) : l.queue = [] ∧ l' = l := by
  obtain ⟨hqueue, hread⟩ | ⟨us, hqueue, -⟩ := pull_eq_ok h
  · refine ⟨hqueue, ?_⟩
    cases reads_of_read hread with
    | stop => rfl
    | scan hfinds => exact absurd ht hfinds.shape.kind_ne_endOfFile
    | letters hs => exact absurd ht (isPiece_of_letters hs).kind_ne_endOfFile
  · have hpiece : t.IsPiece := hq t (by simp [hqueue])
    exact absurd ht hpiece.kind_ne_endOfFile

/-- The end mark is handed out only where nothing waits, and then as it was pulled. -/
theorem next_stop {l l' : Lexer} {t : Token} (hq : l.Queued) (h : l.next = .ok (t, l'))
    (ht : t.kind = .endOfFile) : l.read = .ok (t, l) ∧ l.queue = [] ∧ l'.queue = [] := by
  obtain ⟨u, l₀, hpull, hhand⟩ := next_eq_ok h
  obtain ⟨rfl, rfl⟩ := Prod.mk.inj hhand
  have hkind : u.kind = .endOfFile := Token.kind_of_refine ht
  obtain ⟨hqueue, rfl⟩ := pull_stop hq hpull hkind
  have hkept : u.refine l₀.previous = (u, none) :=
    Token.refine_of_kind_ne (by rw [hkind]; decide) _
  rw [pull, hqueue] at hpull
  refine ⟨?_, hqueue, ?_⟩
  · rw [hkept]
    exact hpull
  · rw [hkept, hqueue]
    rfl

/-- What waits behind the next token are pieces of a run of letters. -/
theorem queued_next {l l' : Lexer} {t : Token} (hq : l.Queued) (h : l.next = .ok (t, l')) :
    l'.Queued := by
  have hands := hands_of_next hq h
  generalize l.ahead = text at hands
  cases hands with
  | stop hk => simp [Queued, (next_stop hq h hk).2.2]
  | token _ _ hq' => exact hq'

/-- Running the lexer succeeds: it gives tokens that hold what was ahead, and the end mark. -/
theorem run_eq_ok {l : Lexer} (hq : l.Queued) :
    ∃ ts stop l', l.run = .ok (ts ++ [stop], l') ∧ stop.kind = .endOfFile ∧ stop.value = [] ∧
      Lexed ts ∧ Token.texts ts = l.ahead := by
  fun_induction run l with
  | case1 l e h =>
    obtain ⟨t, l', hnext, -⟩ := next_hands hq
    simp [hnext] at h
  | case2 l token l' h hk =>
    have hands := hands_of_next hq h
    generalize l.ahead = text at hands ⊢
    cases hands with
    | stop _ hv => exact ⟨[], token, l', rfl, hk, hv, .nil, rfl⟩
    | token hshape => exact absurd hk hshape.kind_ne_endOfFile
  | case3 l token l' h hk e hrun ih =>
    have hands := hands_of_next hq h
    generalize l.ahead = text at hands ⊢
    cases hands with
    | stop hk' => exact absurd hk' hk
    | token _ _ hq' =>
      obtain ⟨ts, stop, last, hok, -⟩ := ih hq'
      simp [hrun] at hok
  | case4 l token l' h hk tokens last hrun ih =>
    have hands := hands_of_next hq h
    generalize l.ahead = text at hands ⊢
    cases hands with
    | stop hk' => exact absurd hk' hk
    | token hshape hends hq' =>
      obtain ⟨ts, stop, last', hok, hstop, hvalue, hlexed, htexts⟩ := ih hq'
      obtain ⟨rfl, rfl⟩ : tokens = ts ++ [stop] ∧ last = last' := by simpa [hrun] using hok
      refine ⟨token :: ts, stop, last, rfl, hstop, hvalue, .cons hshape ?_ hlexed, ?_⟩
      · rwa [htexts]
      · rw [Token.texts_cons, htexts]

end Lexer

theorem Token.unbroken_texts {ts : List Token} (hs : ∀ t ∈ ts, Shape t.kind t.value)
    (hline : ∀ t ∈ ts, t.kind ≠ .endOfLine) : (texts ts).Unbroken := by
  intro c hc
  obtain ⟨t, ht, hct⟩ := List.mem_flatMap.mp hc
  exact (hs t ht).unbroken (hline t ht) c hct

namespace Lexed

/-- No token of a program is the end mark. -/
theorem kind_ne_endOfFile {ts : List Token} (h : Lexed ts) : ∀ t ∈ ts, t.kind ≠ .endOfFile := by
  induction h with
  | nil => simp
  | cons hshape _ _ ih =>
    intro u hu
    rcases List.mem_cons.mp hu with rfl | hu
    · exact hshape.kind_ne_endOfFile
    · exact ih u hu

theorem shape {ts : List Token} (h : Lexed ts) : ∀ t ∈ ts, Token.Shape t.kind t.value := by
  induction h with
  | nil => simp
  | cons hshape _ _ ih =>
    intro u hu
    rcases List.mem_cons.mp hu with rfl | hu
    · exact hshape
    · exact ih u hu

theorem of_suffix {ts us : List Token} (h : Lexed ts) (hs : us <:+ ts) : Lexed us := by
  obtain ⟨used, rfl⟩ := hs
  induction used with
  | nil => exact h
  | cons t used ih =>
    cases h with
    | cons _ _ h => exact ih h

end Lexed

theorem tokens_of_run {source : Text} {ts : List Token} {l : Lexer}
    (h : (Lexer.ofSource source).run = .ok (ts, l)) : tokens source = .ok ts := by
  rw [tokens, h]
  rfl

/-- A program is read in full: its tokens hold the compacted program. -/
theorem tokens_ofSource (source : Text) : ∃ ts stop l,
    (Lexer.ofSource source).run = .ok (ts ++ [stop], l) ∧ stop.kind = .endOfFile ∧
      stop.value = [] ∧ Lexed ts ∧ Token.texts ts = compact source :=
  Lexer.run_eq_ok (l := .ofSource source) (by simp [Lexer.Queued, Lexer.ofSource, Lexer.ofCursor])

end Gcode
