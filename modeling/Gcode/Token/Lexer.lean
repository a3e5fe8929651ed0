import Gcode.Source.Compact
import Gcode.Token.Scan
import Gcode.Token.Segment

/-!
# The lexer

The lexer hands out the tokens of a compacted program one at a time. A run of letters is read as
a whole and cut into several tokens, which wait in a queue; a function name that cannot begin a
call where it stands gives up its first letter, and the remaining letters go back to the front of
the queue.

## Main definitions

* `Token.refine` — a function name in the light of the token before it.
* `Lexer.next` — the next token.
* `Lexer.run` — all tokens up to the end of the program.
* `Lexer.Meets` — what the lexer finds where no letters stand.

## Main statements

* `read_eq_ok` — what is read at the cursor.
* `size_next_lt` — each token but the last takes something from what the lexer has before it.
-/

namespace Gcode

open Cursor (EndOfSource)

/-- Whether a function name right behind a token of the class can begin a call. -/
def TokenKind.precedesCall : TokenKind → Bool
  | .word | .operator | .openBracket | .logical | .assign => true
  | _ => false

/-- A token in the light of the class of the token before it. A function name that cannot begin
a call becomes a word of its first letter, and the letters behind it, if there are any, are
offered as a function name again. -/
def Token.refine (token : Token) (previous : Option TokenKind) : Token × Option Token :=
  if token.kind ≠ .function || previous.all TokenKind.precedesCall then (token, none)
  else
    match token.value with
    | [] => (⟨.word, [], token.line⟩, none)
    | [c] => (⟨.word, [c], token.line⟩, none)
    | c :: d :: rest => (⟨.word, [c], token.line⟩, some ⟨.function, d :: rest, token.line⟩)

/-- The state of reading a program: where the cursor stands, how many brackets are open, the
tokens that wait, the class of the token handed out last, and what was reported. -/
structure Lexer where
  cursor : Cursor
  openBrackets : Nat
  queue : List Token
  previous : Option TokenKind
  reports : List Report

namespace Lexer

/-- The lexer that reads from a cursor on. -/
def ofCursor (cursor : Cursor) : Lexer := ⟨cursor, 0, [], none, []⟩

/-- The lexer that reads a program. -/
def ofSource (source : Text) : Lexer := ofCursor (Cursor.start (compact source))

/-- The lexer behind the token that a scan found. -/
def accept (lexer : Lexer) (s : Scanned) : Token × Lexer :=
  (s.token, { lexer with cursor := s.cursor, reports := lexer.reports ++ s.reports })

/-- The token at the cursor. A run of letters is cut into tokens, of which all but the first are
queued. A closing bracket is one only while a bracket is open. -/
def read (lexer : Lexer) : Except EndOfSource (Token × Lexer) :=
  let c := lexer.cursor
  let line := c.line
  match c.rest with
  | [] => .ok (⟨.endOfFile, [], line⟩, lexer)
  | ch :: rest =>
    if Text.isBreak ch then
      .ok (lexer.accept (Scan.found c .endOfLine line (Scan.breakText (ch :: rest))))
    else if ch = ';' || ch = '(' then (Scan.comment line c).map lexer.accept
    else if Text.isDigit ch || ch = '.' then .ok (lexer.accept (Scan.number line c))
    else if ch = '#' || ch = '<' then (Scan.parameter line c).map lexer.accept
    else if ch = '=' then .ok (lexer.accept (Scan.found c .assign line [ch]))
    else if ch = '[' then
      let lexer := { lexer with openBrackets := lexer.openBrackets + 1 }
      .ok (lexer.accept (Scan.found c .openBracket line [ch]))
    else if ch = ']' && lexer.openBrackets > 0 then
      let lexer := { lexer with openBrackets := lexer.openBrackets - 1 }
      .ok (lexer.accept (Scan.found c .closeBracket line [ch]))
    else
      match Scan.operator line c with
      | .error e => .error e
      | .ok (some s) => .ok (lexer.accept s)
      | .ok none =>
        if Text.isBlank ch then
          .ok (lexer.accept (Scan.found c .unknown line ((ch :: rest).takeWhile Text.isBlank)))
        else
          match Token.segment line ((ch :: rest).takeWhile Scan.isWordChar) with
          | [] => .ok (lexer.accept (Scan.found c .unknown line [ch]))
          | token :: tokens =>
            .ok (token,
              { lexer with cursor := (Scan.letters c).2, queue := lexer.queue ++ tokens })

/-- The first token of the queue, or the one at the cursor if the queue is empty. -/
def pull (lexer : Lexer) : Except EndOfSource (Token × Lexer) :=
  match lexer.queue with
  | [] => lexer.read
  | token :: tokens => .ok (token, { lexer with queue := tokens })

/-- The lexer that hands out a pulled token in the light of the previous one. -/
def handOut (lexer : Lexer) (token : Token) : Token × Lexer :=
  let refined := token.refine lexer.previous
  (refined.1,
    { lexer with
      queue := refined.2.toList ++ lexer.queue
      previous := some refined.1.kind })

/-- The next token. At the end of the program it is the end mark, every time. -/
def next (lexer : Lexer) : Except EndOfSource (Token × Lexer) :=
  match lexer.pull with
  | .error e => .error e
  | .ok (token, lexer) => .ok (lexer.handOut token)

/-! ## What stands at the cursor -/

/-- What the lexer finds at the cursor if no letters stand there, and how many brackets are open
behind that. -/
inductive Meets (lexer : Lexer) : Scanned → Nat → Prop
  | lineBreak {ch : Char} {rest : Text} : lexer.cursor.rest = ch :: rest →
    Text.isBreak ch = true → Meets lexer (Scan.found lexer.cursor .endOfLine lexer.cursor.line
      (Scan.breakText (ch :: rest))) lexer.openBrackets
  | comment {ch : Char} {rest : Text} {s : Scanned} : lexer.cursor.rest = ch :: rest →
    (ch = ';' ∨ ch = '(') → Scan.comment lexer.cursor.line lexer.cursor = .ok s →
    Meets lexer s lexer.openBrackets
  | number {ch : Char} {rest : Text} : lexer.cursor.rest = ch :: rest →
    (Text.isDigit ch = true ∨ ch = '.') →
    Meets lexer (Scan.number lexer.cursor.line lexer.cursor) lexer.openBrackets
  | parameter {ch : Char} {rest : Text} {s : Scanned} : lexer.cursor.rest = ch :: rest →
    (ch = '#' ∨ ch = '<') → Scan.parameter lexer.cursor.line lexer.cursor = .ok s →
    Meets lexer s lexer.openBrackets
  | assign {rest : Text} : lexer.cursor.rest = '=' :: rest →
    Meets lexer (Scan.found lexer.cursor .assign lexer.cursor.line ['=']) lexer.openBrackets
  | openBracket {rest : Text} : lexer.cursor.rest = '[' :: rest →
    Meets lexer (Scan.found lexer.cursor .openBracket lexer.cursor.line ['['])
      (lexer.openBrackets + 1)
  | closeBracket {rest : Text} : lexer.cursor.rest = ']' :: rest → 0 < lexer.openBrackets →
    Meets lexer (Scan.found lexer.cursor .closeBracket lexer.cursor.line [']'])
      (lexer.openBrackets - 1)
  | operator {ch : Char} {rest : Text} {s : Scanned} : lexer.cursor.rest = ch :: rest →
    Scan.operator lexer.cursor.line lexer.cursor = .ok (some s) → Meets lexer s lexer.openBrackets
  | blanks {ch : Char} {rest : Text} : lexer.cursor.rest = ch :: rest → Text.isBlank ch = true →
    Meets lexer (Scan.found lexer.cursor .unknown lexer.cursor.line
      ((ch :: rest).takeWhile Text.isBlank)) lexer.openBrackets
  | stray {ch : Char} {rest : Text} : lexer.cursor.rest = ch :: rest → Text.isBreak ch = false →
    Text.isBlank ch = false → ch ≠ ';' → ch ≠ '(' → (ch = ']' → lexer.openBrackets = 0) →
    Meets lexer (Scan.found lexer.cursor .unknown lexer.cursor.line [ch]) lexer.openBrackets

/-- What is read at the cursor is the end mark, or something that the lexer meets there, or the
first token of a run of letters. -/
theorem read_eq_ok {lexer lexer' : Lexer} {token : Token} (h : lexer.read = .ok (token, lexer')) :
    (lexer.cursor.rest = [] ∧ token = ⟨.endOfFile, [], lexer.cursor.line⟩ ∧ lexer' = lexer) ∨
      (∃ s n, lexer.Meets s n ∧
        accept { lexer with openBrackets := n } s = (token, lexer')) ∨
      ∃ tokens, Token.segment lexer.cursor.line
          (lexer.cursor.rest.takeWhile Scan.isWordChar) = token :: tokens ∧
        lexer' = { lexer with
          cursor := (Scan.letters lexer.cursor).2, queue := lexer.queue ++ tokens } := by
  have met : ∀ {s n}, lexer.Meets s n → (Except.ok (accept { lexer with openBrackets := n } s) :
      Except EndOfSource _) = .ok (token, lexer') → ∃ s n, lexer.Meets s n ∧
        accept { lexer with openBrackets := n } s = (token, lexer') :=
    fun hs heq => ⟨_, _, hs, Except.ok.inj heq⟩
  have scanned : ∀ scan : Except EndOfSource Scanned,
      (∀ s, scan = .ok s → lexer.Meets s lexer.openBrackets) →
      scan.map lexer.accept = .ok (token, lexer') → ∃ s n, lexer.Meets s n ∧
        accept { lexer with openBrackets := n } s = (token, lexer') := by
    rintro (_ | s) hs heq
    · cases heq
    · exact met (hs s rfl) heq
  unfold read at h
  dsimp only at h
  cases hr : lexer.cursor.rest with
  | nil =>
    rw [hr] at h
    cases h
    exact .inl ⟨rfl, rfl, rfl⟩
  | cons ch rest =>
    refine .inr ?_
    rw [hr] at h
    dsimp only at h
    -- The tests are made in the order in which the lexer makes them.
    split at h
    case isTrue hbreak => exact .inl (met (.lineBreak hr hbreak) h)
    case isFalse hbreak =>
    split at h
    case isTrue hc =>
      simp only [Bool.or_eq_true, decide_eq_true_eq] at hc
      exact .inl (scanned _ (fun _ => .comment hr hc) h)
    case isFalse hcomment =>
    split at h
    case isTrue hc =>
      simp only [Bool.or_eq_true, decide_eq_true_eq] at hc
      exact .inl (met (.number hr hc) h)
    split at h
    case isTrue hc =>
      simp only [Bool.or_eq_true, decide_eq_true_eq] at hc
      exact .inl (scanned _ (fun _ => .parameter hr hc) h)
    split at h
    case isTrue hc =>
      subst hc
      exact .inl (met (.assign hr) h)
    split at h
    case isTrue hc =>
      subst hc
      exact .inl (met (.openBracket hr) h)
    split at h
    case isTrue hc =>
      simp only [Bool.and_eq_true, decide_eq_true_eq] at hc
      obtain ⟨rfl, hopen⟩ := hc
      exact .inl (met (.closeBracket hr hopen) h)
    case isFalse hclosed =>
    split at h
    case h_1 => cases h
    case h_2 s hs => exact .inl (met (.operator hr hs) h)
    split at h
    case isTrue hblank => exact .inl (met (.blanks hr hblank) h)
    case isFalse hblank =>
    split at h
    case h_1 =>
      simp only [Bool.or_eq_true, decide_eq_true_eq, not_or] at hcomment
      rw [Bool.not_eq_true] at hbreak hblank
      refine .inl (met (.stray hr hbreak hblank hcomment.1 hcomment.2 fun hc => ?_) h)
      simpa [hc] using hclosed
    case h_2 first more hs =>
      cases h
      exact .inr ⟨more, hs, rfl⟩

/-- What is pulled is read at the cursor, or waited in the queue. -/
theorem pull_eq_ok {lexer lexer' : Lexer} {token : Token} (h : lexer.pull = .ok (token, lexer')) :
    (lexer.queue = [] ∧ lexer.read = .ok (token, lexer')) ∨
      ∃ more, lexer.queue = token :: more ∧ lexer' = { lexer with queue := more } := by
  unfold pull at h
  split at h
  case h_1 hqueue => exact .inl ⟨hqueue, h⟩
  case h_2 more hqueue =>
    cases h
    exact .inr ⟨more, hqueue, rfl⟩

theorem next_eq_ok {lexer lexer' : Lexer} {token : Token} (h : lexer.next = .ok (token, lexer')) :
    ∃ pulled behind, lexer.pull = .ok (pulled, behind) ∧
      behind.handOut pulled = (token, lexer') := by
  unfold next at h
  split at h
  · cases h
  case h_2 pulled behind hpull => exact ⟨pulled, behind, hpull, Except.ok.inj h⟩

/-- What the lexer meets is what the cursor passes over. -/
theorem Meets.covers {lexer : Lexer} {s : Scanned} {n : Nat} (h : lexer.Meets s n) :
    Scan.Covers lexer.cursor s := by
  cases h with
  | lineBreak hr => exact Scan.covers_found (hr ▸ Scan.breakText_isPrefix _) _ _
  | comment _ _ hs => exact (Scan.covers_comment hs).1
  | number => exact Scan.covers_number _ _
  | parameter _ _ hs => exact (Scan.covers_parameter hs).1
  | assign hr | openBracket hr | closeBracket hr | stray hr =>
    exact Scan.covers_found (hr ▸ ⟨_, rfl⟩) _ _
  | operator _ hs => exact (Scan.covers_operator hs).1
  | blanks hr => exact Scan.covers_found (hr ▸ List.takeWhile_prefix _) _ _

/-- What the lexer meets is not empty. -/
theorem Meets.value_ne_nil {lexer : Lexer} {s : Scanned} {n : Nat} (h : lexer.Meets s n) :
    s.token.value ≠ [] := by
  cases h with
  | lineBreak => exact Scan.breakText_ne_nil (List.cons_ne_nil _ _)
  | comment _ _ hs => exact (Scan.covers_comment hs).2
  | number hr hc =>
    rw [Scan.value_number, hr]
    exact Scan.numeral_ne_nil hc _
  | parameter _ _ hs => exact (Scan.covers_parameter hs).2
  | assign | openBracket | closeBracket | stray => exact List.cons_ne_nil _ _
  | operator _ hs => exact (Scan.covers_operator hs).2
  | blanks _ hb => simp [Scan.found, hb]

/-! ## Termination -/

/-- What a lexer has before it: twice the text ahead, and each waiting token with its text. -/
def size (lexer : Lexer) : Nat :=
  2 * lexer.cursor.rest.length + (lexer.queue.flatMap Token.value).length + lexer.queue.length

theorem size_accept {lexer : Lexer} {s : Scanned} (h : Scan.Covers lexer.cursor s)
    (hs : s.token.value ≠ []) :
    (lexer.accept s).2.size + (lexer.accept s).1.value.length + 1 ≤ lexer.size := by
  have hl := congrArg List.length h
  have := List.length_pos_iff.mpr hs
  simp only [List.length_append] at hl
  simp only [accept, size]
  omega

/-- Reading a token other than the end mark takes more from the text than the token returns. -/
theorem size_read {lexer lexer' : Lexer} {token : Token} (h : lexer.read = .ok (token, lexer'))
    (ht : token.kind ≠ .endOfFile) : lexer'.size + token.value.length + 1 ≤ lexer.size := by
  obtain ⟨-, rfl, -⟩ | ⟨s, n, hmeets, heq⟩ | ⟨more, hs, rfl⟩ := read_eq_ok h
  · exact absurd rfl ht
  · cases heq
    exact @size_accept { lexer with openBrackets := n } s hmeets.covers hmeets.value_ne_nil
  · have htexts := congrArg List.length
      (Token.flatMap_segment lexer.cursor.line (lexer.cursor.rest.takeWhile Scan.isWordChar))
    have hcount :=
      Token.length_segment_le lexer.cursor.line (lexer.cursor.rest.takeWhile Scan.isWordChar)
    have hle := (List.takeWhile_prefix Scan.isWordChar (l := lexer.cursor.rest)).length_le
    rw [hs, List.flatMap_cons, List.length_append] at htexts
    rw [hs, List.length_cons] at hcount
    simp only [size, Scan.letters, Cursor.rest_skip, List.length_drop, List.flatMap_append,
      List.length_append]
    omega

/-- Handing out a token puts back less than the token. -/
theorem size_handOut_le (lexer : Lexer) (token : Token) :
    (lexer.handOut token).2.size ≤ lexer.size + token.value.length := by
  simp only [handOut, size, Token.refine, List.flatMap_append, List.length_append]
  split
  · simp
  · split <;> simp_all
    omega

/-- Each token but the end mark takes something from what the lexer has before it. -/
theorem size_next_lt {lexer lexer' : Lexer} {token : Token}
    (h : lexer.next = .ok (token, lexer')) (ht : token.kind ≠ .endOfFile) :
    lexer'.size < lexer.size := by
  obtain ⟨pulled, behind, hpull, hhand⟩ := next_eq_ok h
  obtain ⟨rfl, rfl⟩ := Prod.mk.inj hhand
  have hk : pulled.kind ≠ .endOfFile := by
    intro hk
    apply ht
    simp [Token.refine, hk]
  have hsize : behind.size + pulled.value.length + 1 ≤ lexer.size := by
    obtain ⟨-, hread⟩ | ⟨more, hqueue, rfl⟩ := pull_eq_ok hpull
    · exact size_read hread hk
    · simp only [size, hqueue, List.flatMap_cons, List.length_append, List.length_cons]
      omega
  exact Nat.lt_of_le_of_lt (size_handOut_le behind pulled) (by omega)

/-! ## Running the lexer -/

/-- All tokens from here up to the end mark, and the lexer behind it. -/
def run (lexer : Lexer) : Except EndOfSource (List Token × Lexer) :=
  match _h : lexer.next with
  | .error e => .error e
  | .ok (token, lexer') =>
    if _ht : token.kind = .endOfFile then .ok ([token], lexer')
    else
      match run lexer' with
      | .error e => .error e
      | .ok (tokens, last) => .ok (token :: tokens, last)
termination_by lexer.size
decreasing_by exact size_next_lt _h _ht

end Lexer

/-- The tokens of a program, the end mark included. -/
def tokens (source : Text) : Except EndOfSource (List Token) :=
  (Lexer.ofSource source).run.map Prod.fst

end Gcode
