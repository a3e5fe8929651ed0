import Gcode.Proofs.Token.Lexed
import Mathlib.Data.List.Chain
import Mathlib.Logic.Relation

/-!
# Reading in two passes

The lexer reads the program, cuts runs of letters into pieces and looks at function names, all at
the same time and with a queue between. It gives what two passes would give, one behind the other:
the first reads the program and cuts each run of letters, the second goes through the tokens and
takes each function name in the light of the token before it.

## Main definitions

* `Raw` — what is read at once: a token, or a run of letters.
* `Lexer.rawRun` — the first pass.
* `Token.refined` — the second pass.

## Main statements

* `Lexer.run_eq_refined` — a lexer gives what the second pass makes of the tokens that wait and of
  the ones that the first pass reads.
* `tokens_eq_refined` — the tokens of a program are those of the two passes.
-/

namespace Gcode

open Cursor (EndOfSource)

/-! ## The two passes -/

/-- What is read at once: a token, or a run of letters on a line, not yet cut. -/
inductive Raw
  | token (t : Token)
  | letters (line : Int) (run : Text)

namespace Raw

/-- The tokens that were read, those of a run of letters being its pieces. -/
def tokens : Raw → List Token
  | token t => [t]
  | letters line run => Token.segment line run

/-- Whether the end mark was read. -/
def isStop : Raw → Bool
  | token t => t.kind = .endOfFile
  | letters _ _ => false

end Raw

/-- Tokens with each function name in the light of the class of the token before it. One that
cannot begin a call becomes a word of its first letter, and a function name of the letters behind
it if there are any. -/
def Token.refined : Option TokenKind → List Token → List Token
  | _, [] => []
  | previous, t :: ts =>
    if t.kind = .function ∧ previous.all TokenKind.precedesCall = false then
      let word : Token := ⟨.word, t.value.take 1, t.line⟩
      if t.value.drop 1 = [] then word :: refined (some .word) ts
      else word :: ⟨.function, t.value.drop 1, t.line⟩ :: refined (some .function) ts
    else t :: refined (some t.kind) ts

namespace Lexer

/-- The lexer with nothing in its queue and no token before. -/
def bare (l : Lexer) : Lexer := { l with queue := [], previous := none }

/-- What stands at the cursor: a run of letters, or else a token. -/
def readRaw (l : Lexer) : Except EndOfSource (Raw × Lexer) :=
  let run := Scan.letters l.cursor
  if run.1 = [] then l.read.map fun found => (.token found.1, found.2)
  else .ok (.letters l.cursor.line run.1, { l with cursor := run.2 })

theorem size_readRaw_lt {l l' : Lexer} {raw : Raw} (h : l.readRaw = .ok (raw, l'))
    (hs : raw.isStop = false) : l'.size < l.size := by
  unfold readRaw at h
  dsimp only at h
  split at h
  case isTrue =>
    cases hread : l.read with
    | error e => simp [hread, Except.map] at h
    | ok found =>
      obtain ⟨t, l₀⟩ := found
      rw [hread] at h
      obtain ⟨rfl, rfl⟩ := Prod.mk.inj (Except.ok.inj h)
      have hsize := size_read hread (by simpa [Raw.isStop] using hs)
      dsimp only
      omega
  case isFalse hne =>
    cases h
    have hpos := List.length_pos_iff.mpr hne
    have hle := (List.takeWhile_prefix Scan.isWordChar (l := l.cursor.rest)).length_le
    simp only [Scan.letters] at hpos
    simp only [size, Scan.letters, Cursor.rest_skip, List.length_drop]
    omega

/-- All that is read from here up to the end mark. -/
def rawRun (l : Lexer) : Except EndOfSource (List Raw) :=
  match _h : l.readRaw with
  | .error e => .error e
  | .ok (raw, l') => if _hs : raw.isStop then .ok [raw] else (rawRun l').map (raw :: ·)
termination_by l.size
decreasing_by exact size_readRaw_lt _h (by simpa using _hs)

end Lexer

/-! ## The second pass -/

namespace Token

/-- The second pass may be taken token by token, with what a function name gives up handed back
each time. -/
theorem refined_cons (previous : Option TokenKind) (t : Token) (ts : List Token) :
    refined previous (t :: ts) = (t.refine previous).1 ::
      refined (some (t.refine previous).1.kind) ((t.refine previous).2.toList ++ ts) := by
  rw [refined]
  split
  case isTrue h =>
    rw [refine_of_not h.1 h.2]
    dsimp only
    split
    · rfl
    · simp [refined, TokenKind.precedesCall]
  case isFalse h =>
    have hkeep : t.refine previous = (t, none) := by
      rw [refine, if_pos]
      simpa [Decidable.imp_iff_not_or] using h
    rw [hkeep]
    rfl

/-- Behind the second pass, a function name can begin a call where it stands. -/
theorem isChain_refined (previous : Option TokenKind) (ts : List Token) :
    (∀ f ∈ (refined previous ts).head?, f.kind = .function →
      previous.all TokenKind.precedesCall = true) ∧
    (refined previous ts).IsChain fun p f => f.kind = .function → p.kind.precedesCall = true := by
  fun_induction refined previous ts with
  | case1 => exact ⟨by simp, .nil⟩
  | case2 previous t ts h word hone ih =>
    refine ⟨by simp [word], List.isChain_cons.mpr ⟨?_, ih.2⟩⟩
    exact fun f hf hk => by simpa using ih.1 f hf hk
  | case3 previous t ts h word hmore ih =>
    refine ⟨by simp [word], .cons_cons (fun _ => rfl) (List.isChain_cons.mpr ⟨?_, ih.2⟩)⟩
    exact fun f hf hk => by simpa using ih.1 f hf hk
  | case4 previous t ts h ih =>
    refine ⟨?_, List.isChain_cons.mpr ⟨fun f hf hk => by simpa using ih.1 f hf hk, ih.2⟩⟩
    rintro f hf hk
    obtain rfl : t = f := by simpa using hf
    simpa [hk] using h

example : Token.refined none [⟨.comparison, "EQ", 1⟩, ⟨.function, "EXISTS", 1⟩] =
    [⟨.comparison, "EQ", 1⟩, ⟨.word, "E", 1⟩, ⟨.function, "XISTS", 1⟩] := by decide

end Token

/-! ## The first pass -/

/-- A character that words are made of begins nothing else. -/
theorem Text.not_mem_of_isWordChar {c : Char} (h : Scan.isWordChar c = true) :
    isDigit c = false ∧ ∀ d ∈ (".#<=[]%+-/*" : Text), c ≠ d := by
  constructor
  · have ascii : ∀ n < 128, Scan.isWordChar (Char.ofNat n) = true →
        isDigit (Char.ofNat n) = false := by decide
    have key := ascii c.toNat (toNat_lt_of_isWordChar h)
    rw [Char.ofNat_toNat] at key
    exact key h
  · rintro d hd rfl
    have signs : (".#<=[]%+-/*" : Text).all fun d => !Scan.isWordChar d := by decide
    simpa [h] using List.all_eq_true.mp signs c hd

theorem Scan.operator_eq_none {c : Cursor} {ch : Char} {rest : Text} (hr : c.rest = ch :: rest)
    (h : isWordChar ch = true) (line : Int) : operator line c = .ok none := by
  obtain ⟨-, hsigns⟩ := Text.not_mem_of_isWordChar h
  unfold operator
  split
  case h_1 hnil => simp [hr] at hnil
  case h_2 r hcons =>
    obtain ⟨rfl, -⟩ := List.cons.inj (hr.symm.trans hcons)
    simp at hsigns
  case h_3 d r _ hcons =>
    obtain ⟨rfl, -⟩ := List.cons.inj (hr.symm.trans hcons)
    simp_all

namespace Lexer

/-- At a run of letters, the first of its pieces is read. -/
theorem read_eq_behindLetters {l : Lexer} {t : Token} {ts : List Token}
    (hs : Token.segment l.cursor.line (l.cursor.rest.takeWhile Scan.isWordChar) = t :: ts) :
    l.read = .ok (t, l.behindLetters ts) := by
  cases hr : l.cursor.rest with
  | nil => simp [hr, Token.segment] at hs
  | cons ch rest =>
    have hch : Scan.isWordChar ch = true := by
      by_contra h
      simp [hr, h, Token.segment] at hs
    obtain ⟨hspace, hsemicolon, hparen⟩ := Text.isSpace_of_isWordChar hch
    obtain ⟨hdigit, hsigns⟩ := Text.not_mem_of_isWordChar hch
    have hoperator := Scan.operator_eq_none hr hch l.cursor.line
    rw [hr] at hs
    unfold read
    simp_all [Text.isBreak_of_isSpace, Text.isBlank_of_isSpace, behindLetters]

/-- Away from letters, it does not matter what waits and what was handed out before. -/
theorem read_bare {l : Lexer} (h : l.cursor.rest.takeWhile Scan.isWordChar = []) :
    l.bare.read = l.read.map fun found => (found.1, found.2.bare) := by
  obtain ⟨cursor, openBrackets, queue, previous, reports⟩ := l
  change read ⟨cursor, openBrackets, [], none, reports⟩ = (read _).map _
  unfold read
  dsimp only at h ⊢
  cases hr : cursor.rest with
  | nil => rfl
  | cons ch rest =>
    rw [hr] at h
    dsimp only
    rw [h, Token.segment]
    split
    · rfl
    split
    · cases Scan.comment cursor.line cursor <;> rfl
    split
    · rfl
    split
    · cases Scan.parameter cursor.line cursor <;> rfl
    split
    · rfl
    split
    · rfl
    split
    · rfl
    rcases Scan.operator cursor.line cursor with _ | _ | _
    · rfl
    · dsimp only
      split <;> rfl
    · rfl

/-- What is read at the cursor and what waits behind it are the pieces of what the first pass reads
there. -/
theorem readRaw_bare {l l' : Lexer} {t : Token} (hq : l.queue = [])
    (h : l.read = .ok (t, l')) : l'.previous = l.previous ∧
      ∃ raw, l.bare.readRaw = .ok (raw, l'.bare) ∧ raw.tokens = t :: l'.queue ∧
        raw.isStop = decide (t.kind = .endOfFile) := by
  by_cases hrun : l.cursor.rest.takeWhile Scan.isWordChar = []
  · have hnone : (Scan.letters l.bare.cursor).1 = [] := hrun
    have hraw : l.bare.readRaw = .ok (.token t, l'.bare) := by
      rw [readRaw, if_pos hnone, read_bare hrun, h]
      rfl
    have hkept : l'.previous = l.previous ∧ l'.queue = [] := by
      cases reads_of_read h with
      | stop => exact ⟨rfl, hq⟩
      | scan => exact ⟨rfl, hq⟩
      | letters hs => simp [hrun, Token.segment] at hs
    exact ⟨hkept.1, .token t, hraw, by rw [hkept.2]; rfl, rfl⟩
  · have hsome : (Scan.letters l.bare.cursor).1 ≠ [] := hrun
    have htexts :=
      Token.flatMap_segment l.cursor.line (l.cursor.rest.takeWhile Scan.isWordChar)
    cases hs : Token.segment l.cursor.line (l.cursor.rest.takeWhile Scan.isWordChar) with
    | nil =>
      rw [hs] at htexts
      exact absurd htexts.symm hrun
    | cons u us =>
      have hpiece := isPiece_of_letters hs
      rw [read_eq_behindLetters hs] at h
      cases h
      refine ⟨rfl, .letters l.cursor.line (l.cursor.rest.takeWhile Scan.isWordChar), ?_, ?_, ?_⟩
      · rw [readRaw, if_neg hsome]
        rfl
      · rw [behindLetters, hq, List.nil_append]
        exact hs
      · exact (decide_eq_false hpiece.kind_ne_endOfFile).symm

/-- What was pulled comes first among what waits and what the first pass reads from here on. -/
theorem pull_pass {l l' : Lexer} {t : Token} (h : l.pull = .ok (t, l'))
    (ht : t.kind ≠ .endOfFile) {raws : List Raw} (hraws : l.bare.rawRun = .ok raws) :
    l'.previous = l.previous ∧ ∃ raws', l'.bare.rawRun = .ok raws' ∧
      l.queue ++ raws.flatMap Raw.tokens = t :: l'.queue ++ raws'.flatMap Raw.tokens := by
  obtain ⟨hq, hread⟩ | ⟨us, hq, rfl⟩ := pull_eq_ok h
  case inr => exact ⟨rfl, raws, hraws, by rw [hq]⟩
  case inl =>
    obtain ⟨hprevious, raw, hraw, htokens, hstop⟩ := readRaw_bare hq hread
    rw [rawRun, hraw] at hraws
    dsimp only at hraws
    rw [dif_neg (by simpa [hstop] using ht)] at hraws
    cases hrest : l'.bare.rawRun with
    | error e => simp [hrest, Except.map] at hraws
    | ok raws' =>
      rw [hrest] at hraws
      cases hraws
      exact ⟨hprevious, raws', rfl, by simp [hq, htokens]⟩

/-- The first pass succeeds. -/
theorem rawRun_eq_ok (l : Lexer) : ∃ raws, l.rawRun = .ok raws := by
  have readable : ∀ l : Lexer, ∃ found, l.readRaw = .ok found := by
    intro l
    obtain ⟨t, l', hread, -⟩ := read_reads l
    unfold readRaw
    dsimp only
    split
    · rw [hread]
      exact ⟨_, rfl⟩
    · exact ⟨_, rfl⟩
  fun_induction rawRun l with
  | case1 l e h =>
    obtain ⟨found, hok⟩ := readable l
    simp [h] at hok
  | case2 l raw l' h hs => exact ⟨_, rfl⟩
  | case3 l raw l' h hs ih =>
    obtain ⟨raws, hraws⟩ := ih
    exact ⟨_, by rw [hraws]; rfl⟩

/-! ## Both passes -/

/-- A lexer gives what the second pass makes of the tokens that wait and of what the first pass
reads from here on. -/
theorem run_eq_refined {l last : Lexer} {ts : List Token} (hq : l.Queued)
    (h : l.run = .ok (ts, last)) {raws : List Raw} (hraws : l.bare.rawRun = .ok raws) :
    ts = Token.refined l.previous (l.queue ++ raws.flatMap Raw.tokens) := by
  fun_induction run l generalizing ts raws with
  | case1 l e _ => cases h
  | case2 l token l' hnext hk =>
    cases h
    obtain ⟨hread, hqueue, -⟩ := next_stop hq hnext hk
    obtain ⟨-, raw, hraw, htokens, hstop⟩ := readRaw_bare hqueue hread
    rw [rawRun, hraw] at hraws
    dsimp only at hraws
    rw [dif_pos (by simp [hstop, hk])] at hraws
    cases hraws
    simp [htokens, hqueue, Token.refined, hk]
  | case3 l token l' hnext hk e hrun ih => cases h
  | case4 l token l' hnext hk tokens last' hrun ih =>
    cases h
    have hq' := queued_next hq hnext
    obtain ⟨u, l₀, hpull, hhand⟩ := next_eq_ok hnext
    obtain ⟨rfl, rfl⟩ := Prod.mk.inj hhand
    have hu : u.kind ≠ .endOfFile := by
      intro hu
      rw [Token.refine_of_kind_ne (by rw [hu]; decide)] at hk
      exact hk hu
    obtain ⟨hprevious, raws', hraws', htokens⟩ := pull_pass hpull hu hraws
    rw [htokens, List.cons_append, Token.refined_cons, ← hprevious, ih hq' hrun hraws',
      List.append_assoc]

/-- The lexer comes to stand as `l'` after some calls for the next token. -/
def Reaches : Lexer → Lexer → Prop := Relation.ReflTransGen fun l l' => ∃ t, l.next = .ok (t, l')

theorem Reaches.queued {l l' : Lexer} (h : l.Reaches l') (hq : l.Queued) : l'.Queued := by
  induction h with
  | refl => exact hq
  | tail _ hnext ih => exact queued_next ih hnext.choose_spec

end Lexer

/-- The tokens of a program are those that come from two passes, one behind the other. Therefore a
function name is the first token or can begin a call behind the token before it. The end mark is
handed out only where nothing waits. -/
theorem tokens_eq_refined (source : Text) : ∃ raws ts,
    (Lexer.ofSource source).rawRun = .ok raws ∧ tokens source = .ok ts ∧
    ts = Token.refined none (raws.flatMap Raw.tokens) ∧
    (∀ before p f behind, ts = before ++ p :: f :: behind → f.kind = .function →
      p.kind.precedesCall = true) ∧
    ∀ l t l', (Lexer.ofSource source).Reaches l → l.next = .ok (t, l') → t.kind = .endOfFile →
      l.queue = [] ∧ l'.queue = [] := by
  have hq : (Lexer.ofSource source).Queued := by simp [Lexer.Queued, Lexer.ofSource, Lexer.ofCursor]
  obtain ⟨raws, hraws⟩ := (Lexer.ofSource source).rawRun_eq_ok
  obtain ⟨ts, stop, last, hrun, -⟩ := tokens_ofSource source
  have hrefined : ts ++ [stop] = Token.refined none (raws.flatMap Raw.tokens) :=
    Lexer.run_eq_refined hq hrun hraws
  refine ⟨raws, _, hraws, tokens_of_run hrun, hrefined, ?_, ?_⟩
  · intro before p f behind hts hk
    have hchain := (Token.isChain_refined none (raws.flatMap Raw.tokens)).2
    rw [← hrefined, hts] at hchain
    exact (List.isChain_append_cons_cons.mp hchain).2.1 hk
  · exact fun l t l' hl hnext ht => (Lexer.next_stop (hl.queued hq) hnext ht).2

end Gcode
