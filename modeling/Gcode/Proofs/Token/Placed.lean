import Gcode.Proofs.Token.Lexed

/-!
# Where the tokens of a program stand

The lexer passes over the compacted program once. Every token is put on the line that the cursor
is on, and the cursor comes to the next line exactly behind a line break, which is taken whole.

## Main definitions

* `Lexer.Level` — what waits in the queue is on the line of the cursor.
* `Lexer.Places` — a token between the lexers before and behind it.
* `Placed` — from a line on, each token of a list is on the line it begins on.

## Main statements

* `Lexer.next_places` — one token, and the line that the lexer is on behind it.
* `Lexer.run_placed` — the tokens of a run are placed.
* `tokens_cover` — the tokens of a program hold it and are on the right lines.
-/

namespace Gcode

/-! ## The line of a cursor -/

namespace Cursor

theorem line_step {c : Cursor} {ch : Char} {rest : Text} (hr : c.rest = ch :: rest) :
    c.step.line = if endsLine ch rest then c.line + 1 else c.line := by
  unfold step
  split
  case h_1 h => simp [hr] at h
  case h_2 d r h =>
    obtain ⟨rfl, rfl⟩ : ch = d ∧ rest = r := List.cons.inj (hr.symm.trans h)
    rfl

/-- Within a line, the cursor stays on the line. -/
theorem line_skip_of_unbroken {c : Cursor} {u rest : Text} (hr : c.rest = u ++ rest)
    (hu : u.Unbroken) : (c.skip u.length).line = c.line := by
  induction u generalizing c with
  | nil => rfl
  | cons ch u ih =>
    obtain ⟨hch, hu⟩ := Text.unbroken_cons.mp hu
    have hline : c.step.line = c.line := by
      simp only [Text.isBreak, Bool.or_eq_false_iff, decide_eq_false_iff_not] at hch
      rw [line_step hr, if_neg (by simp [endsLine, hch])]
    rw [List.length_cons, skip, ih (by rw [rest_step, hr]; rfl) hu, hline]

/-- A line break leads to the next line. -/
theorem line_skip_breakText {c : Cursor} {ch : Char} {rest : Text} (hr : c.rest = ch :: rest)
    (hb : Text.isBreak ch = true) :
    (c.skip (Scan.breakText (ch :: rest)).length).line = c.line + 1 := by
  by_cases pair : ∃ r, ch = '\r' ∧ rest = '\n' :: r
  · obtain ⟨r, rfl, rfl⟩ := pair
    have hfirst : c.step.line = c.line := by rw [line_step hr]; rfl
    have hrest : c.step.rest = '\n' :: r := by
      rw [rest_step, hr]
      rfl
    have hsecond : c.step.step.line = c.step.line + 1 := by
      rw [line_step hrest]
      rfl
    exact hsecond.trans (by rw [hfirst])
  · have hone : Scan.breakText (ch :: rest) = [ch] := by
      unfold Scan.breakText
      split
      case h_1 r h =>
        obtain ⟨rfl, rfl⟩ := List.cons.inj h
        exact absurd ⟨r, rfl, rfl⟩ pair
      case h_2 h => rw [(List.cons.inj h).1]
      case h_3 h => contradiction
    have hends : endsLine ch rest = true := by
      simp only [Text.isBreak, Bool.or_eq_true, decide_eq_true_eq] at hb
      rcases hb with rfl | rfl
      · cases rest with
        | nil => rfl
        | cons d r =>
          have hd : d ≠ '\n' := by
            rintro rfl
            exact pair ⟨r, rfl, rfl⟩
          simp [endsLine, hd]
      · rfl
    rw [hone, List.length_singleton, skip, skip, line_step hr, hends]
    rfl

end Cursor

namespace Scan

theorem mem_breakText (ch : Char) (rest : Text) : ch ∈ breakText (ch :: rest) := by
  obtain ⟨t, ht⟩ := breakText_isPrefix (ch :: rest)
  cases hb : breakText (ch :: rest) with
  | nil => exact absurd hb (breakText_ne_nil (by simp))
  | cons d u =>
    rw [hb] at ht
    rw [(List.cons.inj ht).1]
    exact List.mem_cons_self

/-- A line break is a pair of characters, or one of them. -/
theorem breakText_mem {ch : Char} {rest : Text} (hb : Text.isBreak ch = true) :
    breakText (ch :: rest) ∈ ([['\r', '\n'], ['\r'], ['\n']] : List Text) := by
  unfold breakText
  split
  · simp
  · rename_i h
    obtain ⟨rfl, -⟩ := List.cons.inj h
    simp only [Text.isBreak, Bool.or_eq_true, decide_eq_true_eq] at hb
    rcases hb with rfl | rfl <;> simp
  · contradiction

end Scan

/-! ## Runs of letters -/

namespace Token

theorem line_of_mem_segment {line : Int} {t : Text} {token : Token} (h : token ∈ segment line t) :
    token.line = line := by
  fun_induction segment line t with
  | case1 => contradiction
  | case2 c rest _ ih | case3 c rest n _ ih =>
    rcases List.mem_cons.mp h with rfl | h
    · rfl
    · exact ih h

/-- Refining leaves a token on its line. -/
theorem line_refine (t : Token) (previous : Option TokenKind) :
    (t.refine previous).1.line = t.line ∧ ∀ u ∈ (t.refine previous).2, u.line = t.line := by
  unfold refine
  split
  · simp
  · split <;> simp

/-- Refining makes no line break of a function name. -/
theorem kind_refine_ne {t : Token} (h : t.kind = .function) (previous : Option TokenKind) :
    (t.refine previous).1.kind ≠ .endOfLine := by
  unfold refine
  split
  · simp [h]
  · split <;> simp

end Token

/-! ## The lexer -/

namespace Lexer

/-- What waits in the queue is on the line that the cursor is on. -/
def Level (l : Lexer) : Prop := ∀ t ∈ l.queue, t.line = l.cursor.line

/-- A token between the lexers before and behind it: it is on the line that the first one is on,
and a line break, taken whole, leads to the next line. -/
structure Places (l : Lexer) (t : Token) (l' : Lexer) : Prop where
  line_eq : t.line = l.cursor.line
  level : l'.Level
  ofBreak : t.kind = .endOfLine →
    t.value = Scan.breakText l.ahead ∧ l'.cursor.line = l.cursor.line + 1
  ofOther : t.kind ≠ .endOfLine → l'.cursor.line = l.cursor.line

/-- What a scan finds is placed: within a line the cursor stays on it. -/
theorem places_scan {l : Lexer} (hq : l.queue = []) {s : Scanned} {n : Nat}
    (hf : Scan.Finds l.cursor s) (hs : Scan.Stands l.cursor s) :
    Places l s.token (accept { l with openBrackets := n } s).2 := by
  have hahead : l.ahead = l.cursor.rest := by simp [ahead, hq]
  refine ⟨hs.line_eq, by simp [Level, accept, hq], fun hk => ?_, fun hk => ?_⟩
  · have hvalue := hs.ofBreak hk
    have hshape := hf.shape
    rw [hk] at hshape
    refine ⟨by rw [hahead, hvalue], ?_⟩
    cases hr : l.cursor.rest with
    | nil =>
      rw [hvalue, hr] at hshape
      exact absurd rfl hshape.ne_nil
    | cons ch rest =>
      have hb : Text.isBreak ch = true := by
        rw [hvalue, hr] at hshape
        exact hshape.isBreak ch (Scan.mem_breakText ch rest)
      have hline := Cursor.line_skip_breakText hr hb
      rwa [← hr, ← hvalue, ← hs.cursor_eq] at hline
  · have hline := Cursor.line_skip_of_unbroken hf.covers (hf.shape.unbroken hk)
    rwa [← hs.cursor_eq] at hline

/-- The pieces of a run of letters are on the line of the run. -/
theorem places_letters {l : Lexer} (hq : l.queue = []) {t : Token} {ts : List Token}
    (hs : Token.segment l.cursor.line (l.cursor.rest.takeWhile Scan.isWordChar) = t :: ts) :
    Places l t (l.behindLetters ts) := by
  have hletters : Text.Unbroken (l.cursor.rest.takeWhile Scan.isWordChar) := fun c hc =>
    Text.isBreak_of_isSpace (Text.isSpace_of_isWordChar (Scan.of_mem_takeWhile hc)).1
  have hcursor : (Scan.letters l.cursor).2.line = l.cursor.line :=
    Cursor.line_skip_of_unbroken List.takeWhile_append_dropWhile.symm hletters
  have hlines : ∀ u ∈ t :: ts, u.line = l.cursor.line := by
    rw [← hs]
    exact fun u hu => Token.line_of_mem_segment hu
  have hpiece : t.IsPiece := by
    have hmem : t ∈ Token.segment l.cursor.line (l.cursor.rest.takeWhile Scan.isWordChar) := by
      rw [hs]
      exact List.mem_cons_self
    exact Token.isPiece_of_mem_segment (fun c hc => Scan.of_mem_takeWhile hc) hmem
  refine ⟨hlines t List.mem_cons_self, ?_, fun hk => absurd hpiece.kind ?_, fun _ => hcursor⟩
  · intro u hu
    rw [behindLetters, hq, List.nil_append] at hu
    exact (hlines u (List.mem_cons_of_mem t hu)).trans hcursor.symm
  · rw [hk]
    decide

theorem Reads.places {l l' : Lexer} {t : Token} (h : Reads l t l') (hq : l.queue = []) :
    Places l t l' := by
  cases h with
  | stop => exact ⟨rfl, by simp [Level, hq], fun hk => by contradiction, fun _ => rfl⟩
  | scan hf hs => exact places_scan hq hf hs
  | letters hs => exact places_letters hq hs

/-- Handing out a token in the light of the previous one leaves it on its line. -/
theorem Places.handOut {l l' : Lexer} {t : Token} (h : Places l t l') :
    Places l (l'.handOut t).1 (l'.handOut t).2 := by
  by_cases hk : t.kind = .function
  · have hcursor : l'.cursor.line = l.cursor.line := h.ofOther (by rw [hk]; decide)
    obtain ⟨hfirst, hsecond⟩ := Token.line_refine t l'.previous
    refine ⟨hfirst.trans h.line_eq, ?_, fun hbreak => ?_, fun _ => hcursor⟩
    · intro u hu
      rcases List.mem_append.mp hu with hu | hu
      · rw [hsecond u (Option.mem_toList.mp hu), h.line_eq]
        exact hcursor.symm
      · exact h.level u hu
    · exact absurd hbreak (Token.kind_refine_ne hk l'.previous)
  · simp only [Lexer.handOut, Token.refine_of_kind_ne hk]
    exact ⟨h.line_eq, h.level, h.ofBreak, h.ofOther⟩

/-- One token of a lexer whose queue is on the line of its cursor, and the lexer behind it, which
is on the next line exactly if the token is a line break. -/
theorem next_places {l l' : Lexer} {t : Token} (hq : l.Queued) (hl : l.Level)
    (h : l.next = .ok (t, l')) : Places l t l' := by
  obtain ⟨u, l₀, hpull, hhand⟩ := next_eq_ok h
  obtain ⟨rfl, rfl⟩ := Prod.mk.inj hhand
  obtain ⟨hqueue, hread⟩ | ⟨us, hqueue, rfl⟩ := pull_eq_ok hpull
  · exact ((reads_of_read hread).places hqueue).handOut
  · have hpiece : u.IsPiece := hq u (by simp [hqueue])
    have waits : Places l u { l with queue := us } := by
      refine ⟨hl u (by simp [hqueue]), fun v hv => hl v (by simp [hqueue, hv]), fun hk => ?_,
        fun _ => rfl⟩
      refine absurd hpiece.kind ?_
      rw [hk]
      decide
    exact waits.handOut

end Lexer

/-! ## Runs -/

/-- The number of line breaks among the tokens. -/
def Token.breaks (ts : List Token) : Nat := ts.countP fun t => t.kind = .endOfLine

/-- From a line on, each token is on the line that it begins on, and each line break is taken
whole. -/
inductive Placed : Int → List Token → Prop
  | nil {line : Int} : Placed line []
  | lineBreak {line : Int} {t : Token} {ts : List Token} : t.kind = .endOfLine → t.line = line →
    t.value = Scan.breakText (Token.texts (t :: ts)) → Placed (line + 1) ts → Placed line (t :: ts)
  | onLine {line : Int} {t : Token} {ts : List Token} : t.kind ≠ .endOfLine → t.line = line →
    Placed line ts → Placed line (t :: ts)

/-- The tokens of a run are placed, from the line of the cursor on. -/
theorem Lexer.run_placed {l last : Lexer} {ts : List Token} (hq : l.Queued) (hl : l.Level)
    (h : l.run = .ok (ts, last)) : Placed l.cursor.line ts := by
  fun_induction run l generalizing ts last with
  | case1 l e hnext => contradiction
  | case2 l token l' hnext hk =>
    cases h
    exact .onLine (by rw [hk]; decide) (next_places hq hl hnext).line_eq .nil
  | case3 l token l' hnext hk e hrun ih => contradiction
  | case4 l token l' hnext hk tokens last' hrun ih =>
    cases h
    have places := next_places hq hl hnext
    have hands := hands_of_next hq hnext
    generalize hahead : l.ahead = text at hands
    cases hands with
    | stop hstop => exact absurd hstop hk
    | token hshape _ hq' =>
      have hbehind := ih hq' places.level hrun
      obtain ⟨us, stop, l₁, hrun', -, hvalue, -, htexts⟩ := run_eq_ok hq'
      obtain ⟨rfl, rfl⟩ : tokens = us ++ [stop] ∧ last' = l₁ := by simpa [hrun] using hrun'
      have hall : Token.texts (token :: (us ++ [stop])) = l.ahead := by
        simp [htexts, hvalue, hahead]
      by_cases hbreak : token.kind = .endOfLine
      · obtain ⟨htaken, hline⟩ := places.ofBreak hbreak
        rw [hline] at hbehind
        exact .lineBreak hbreak places.line_eq (by rw [htaken, hall]) hbehind
      · rw [places.ofOther hbreak] at hbehind
        exact .onLine hbreak places.line_eq hbehind

namespace Placed

/-- The line of a token is the first one and one more for each line break before the token. -/
theorem line_eq {line : Int} {before behind : List Token} {t : Token}
    (h : Placed line (before ++ t :: behind)) :
    t.line = line + Token.breaks before := by
  induction before generalizing line with
  | nil => cases h <;> simpa [Token.breaks]
  | cons u before ih =>
    unfold Token.breaks at ih ⊢
    cases h with
    | lineBreak hk _ _ h =>
      rw [ih h, List.countP_cons_of_pos (by simpa using hk)]
      omega
    | onLine hk _ h => rw [ih h, List.countP_cons_of_neg (by simpa using hk)]

/-- A line break is the one that the text begins with from there on. -/
theorem value_eq {line : Int} {before behind : List Token} {t : Token}
    (h : Placed line (before ++ t :: behind)) (hk : t.kind = .endOfLine) :
    t.value = Scan.breakText (t.value ++ Token.texts behind) := by
  induction before generalizing line with
  | nil =>
    cases h with
    | lineBreak _ _ hvalue => exact hvalue
    | onLine hne => exact absurd hk hne
  | cons u before ih => cases h with
    | lineBreak _ _ _ h | onLine _ _ h => exact ih h

/-- A line break is a pair of characters, or one of them. -/
theorem value_mem {line : Int} {before behind : List Token} {t : Token}
    (h : Placed line (before ++ t :: behind)) (hs : Token.Shape t.kind t.value)
    (hk : t.kind = .endOfLine) : t.value ∈ ([['\r', '\n'], ['\r'], ['\n']] : List Text) := by
  have htaken := h.value_eq hk
  rw [hk] at hs
  cases hv : t.value with
  | nil => exact absurd hv hs.ne_nil
  | cons c v =>
    rw [← hv, htaken, hv]
    exact Scan.breakText_mem (hs.isBreak c (by simp [hv]))

/-- No line break is split. -/
theorem not_split {line : Int} {before behind : List Token} {t u : Token}
    (h : Placed line (before ++ t :: u :: behind)) (hs : Token.Shape t.kind t.value) :
    ¬(t.value.getLast? = some '\r' ∧ u.value.head? = some '\n') := by
  rintro ⟨hlast, hfirst⟩
  have hk : t.kind = .endOfLine := by
    by_contra hk
    exact absurd (hs.unbroken hk _ (List.mem_of_getLast? hlast)) (by decide)
  have hlone : t.value = ['\r'] := by
    have hmem := h.value_mem hs hk
    simp only [List.mem_cons, List.not_mem_nil, or_false] at hmem
    rcases hmem with hv | hv | hv
    · simp [hv] at hlast
    · exact hv
    · simp [hv] at hlast
  obtain ⟨v, hu⟩ := List.head?_eq_some_iff.mp hfirst
  have htaken := h.value_eq hk
  rw [hlone, Token.texts_cons, hu] at htaken
  simp [Scan.breakText] at htaken

end Placed

/-- The tokens of a program hold the compacted program, each character once and in order, and one
end mark stands behind them. Only a line break holds a carriage return or a line feed, and no line
break is split. The line of a token is one more than the number of line breaks before it. -/
theorem tokens_cover (source : Text) : ∃ ts stop, tokens source = .ok (ts ++ [stop]) ∧
    Token.texts (ts ++ [stop]) = compact source ∧ stop.kind = .endOfFile ∧ stop.value = [] ∧
    (∀ t ∈ ts, t.kind ≠ .endOfFile ∧ t.value ≠ [] ∧
      (t.kind = .endOfLine → t.value ∈ ([['\r', '\n'], ['\r'], ['\n']] : List Text)) ∧
      (t.kind ≠ .endOfLine → '\r' ∉ t.value ∧ '\n' ∉ t.value)) ∧
    (∀ (before : List Token) (t u : Token) (behind : List Token), ts = before ++ t :: u :: behind →
      ¬(t.value.getLast? = some '\r' ∧ u.value.head? = some '\n')) ∧
    ∀ (before : List Token) (t : Token) (behind : List Token),
      ts ++ [stop] = before ++ t :: behind → t.line = 1 + Token.breaks before := by
  obtain ⟨ts, stop, l, hrun, hstop, hvalue, hlexed, htexts⟩ := tokens_ofSource source
  have hplaced : Placed 1 (ts ++ [stop]) :=
    Lexer.run_placed (by simp [Lexer.Queued, Lexer.ofSource, Lexer.ofCursor])
      (by simp [Lexer.Level, Lexer.ofSource, Lexer.ofCursor]) hrun
  refine ⟨ts, stop, tokens_of_run hrun, by simp [htexts, hvalue], hstop, hvalue,
    fun t ht => ⟨hlexed.kind_ne_endOfFile t ht, (hlexed.shape t ht).ne_nil, fun hk => ?_,
      fun hk => ?_⟩, ?_, fun before t behind hts => ?_⟩
  · obtain ⟨before, behind, rfl⟩ := List.append_of_mem ht
    rw [List.append_assoc] at hplaced
    exact hplaced.value_mem (hlexed.shape t ht) hk
  · have hunbroken := (hlexed.shape t ht).unbroken hk
    exact ⟨fun hc => absurd (hunbroken _ hc) (by decide),
      fun hc => absurd (hunbroken _ hc) (by decide)⟩
  · rintro before t u behind rfl
    rw [List.append_assoc] at hplaced
    exact hplaced.not_split (hlexed.shape t (by simp))
  · rw [hts] at hplaced
    exact hplaced.line_eq

example : (tokens "G\r\n \n\rX").toOption.map (List.map fun t => (String.ofList t.value, t.line)) =
    some [("G", 1), ("\r\n", 1), (" ", 2), ("\n", 2), ("\r", 3), ("X", 4), ("", 4)] := by
  decide +kernel

end Gcode
