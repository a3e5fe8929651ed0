import Gcode.Proofs.Text.Folded
import Gcode.Token.Lexer

/-!
# Lexing without regard to case

The lexer commutes with folding: the tokens of a folded text are the folded tokens of the text,
of the same classes and on the same lines, and the same is reported about them.

## Main definitions

* `Token.folded`, `Report.folded`, `Lexer.folded` — values with all program text in them folded.

## Main statements

* `Lexer.run_folded` — running a folded lexer gives the folded tokens.
-/

namespace Gcode

/-- The token with its text folded. -/
def Token.folded (t : Token) : Token := { t with value := Text.folded t.value }

namespace Token

@[simp] theorem kind_folded (t : Token) : t.folded.kind = t.kind := rfl

@[simp] theorem value_folded (t : Token) : t.folded.value = Text.folded t.value := rfl

@[simp] theorem line_folded (t : Token) : t.folded.line = t.line := rfl

end Token

/-- The problem with the program text that it quotes folded. -/
def Problem.folded : Problem → Problem
  | .unterminatedComment text => .unterminatedComment (Text.folded text)
  | .missingToken wanted found => .missingToken wanted found.folded
  | .missingOperand found => .missingOperand found.folded
  | .strayText text => .strayText (Text.folded text)
  | .unclosedBlock start keyword close => .unclosedBlock (Text.folded start) keyword close
  | problem => problem

/-- The report with the program text that it quotes folded. -/
def Report.folded (r : Report) : Report := { r with problem := r.problem.folded }

namespace Report

@[simp] theorem kind_folded (r : Report) : r.folded.kind = r.kind := by
  obtain ⟨problem, line⟩ := r
  cases problem <;> rfl

@[simp] theorem line_folded (r : Report) : r.folded.line = r.line := rfl

end Report

/-! ## Cursors and scans -/

/-- The cursor at the same place of the folded source. -/
def Cursor.folded (c : Cursor) : Cursor :=
  ⟨Text.folded c.source, c.position, c.line, Text.folded c.rest,
    by rw [c.rest_eq, Text.drop_folded]⟩

namespace Cursor

@[simp] theorem rest_folded (c : Cursor) : c.folded.rest = Text.folded c.rest := rfl

@[simp] theorem line_folded (c : Cursor) : c.folded.line = c.line := rfl

@[simp] theorem endOfSource_folded (c : Cursor) : c.folded.endOfSource = c.endOfSource := rfl

theorem endsLine_folded (ch : Char) (rest : Text) :
    endsLine ch.toLower (Text.folded rest) = endsLine ch rest := by
  have feed : ∀ c : Char, c.toLower = '\n' ↔ c = '\n' := Text.toLower_eq_iff (by decide)
  have carriage : ∀ c : Char, c.toLower = '\r' ↔ c = '\r' := Text.toLower_eq_iff (by decide)
  cases rest <;> simp [endsLine, feed, carriage]

@[simp] theorem step_folded (c : Cursor) : c.folded.step = c.step.folded := by
  obtain ⟨source, position, line, rest, rest_eq⟩ := c
  cases rest with
  | nil => rfl
  | cons ch rest => simp [step, folded, endsLine_folded]

@[simp] theorem skip_folded (c : Cursor) (n : Nat) : c.folded.skip n = (c.skip n).folded := by
  induction n generalizing c with
  | zero => rfl
  | succ n ih => rw [skip, step_folded, ih, skip]

end Cursor

/-- What a scan of the folded source finds. -/
def Scanned.folded (s : Scanned) : Scanned :=
  ⟨s.token.folded, s.cursor.folded, s.reports.map Report.folded⟩

namespace Scan

theorem found_folded (c : Cursor) (kind : TokenKind) (line : Int) (text : Text) :
    found c.folded kind line (Text.folded text) = (found c kind line text).folded := by
  simp [found, Scanned.folded, Token.folded]

theorem anomaly_folded (c : Cursor) (line : Int) (text : Text) (problem : Problem) :
    anomaly c.folded line (Text.folded text) problem.folded =
      (anomaly c line text problem).folded := by
  simp [anomaly, Scanned.folded, Token.folded, Report.folded]

theorem breakText_folded (t : Text) : breakText (Text.folded t) = Text.folded (breakText t) := by
  have feed : ∀ c : Char, c.toLower = '\n' ↔ c = '\n' := Text.toLower_eq_iff (by decide)
  have carriage : ∀ c : Char, c.toLower = '\r' ↔ c = '\r' := Text.toLower_eq_iff (by decide)
  match t with
  | [] => rfl
  | [c] => by_cases hc : c = '\r' <;> simp [breakText, hc]
  | c :: d :: rest =>
    by_cases hc : c = '\r'
    · by_cases hd : d = '\n'
      · subst hc hd
        rfl
      · have hd' : d.toLower ≠ '\n' := mt (feed d).mp hd
        subst hc
        simp [breakText, hd, hd']
    · have hc' : c.toLower ≠ '\r' := mt (carriage c).mp hc
      simp [breakText, hc, hc']

theorem numeral_folded (point : Bool) (t : Text) :
    numeral point (Text.folded t) = Text.folded (numeral point t) := by
  have dot : ∀ c : Char, c.toLower = '.' ↔ c = '.' := Text.toLower_eq_iff (by decide)
  fun_induction numeral point t with
  | case1 => rfl
  | case2 | case3 | case4 | case5 => simp_all [numeral]

theorem angleName_folded (t : Text) : angleName (Text.folded t) = Text.folded (angleName t) := by
  have close : ∀ c : Char, c.toLower = '>' ↔ c = '>' := Text.toLower_eq_iff (by decide)
  cases t with
  | nil => rfl
  | cons c rest =>
    have hname := Text.takeWhile_folded (p := fun x => x ≠ '>' && !Text.isBreak x)
      (fun x => by simp [close]) rest
    simp only [angleName, Text.folded_cons, hname, Text.length_folded, Text.drop_folded]
    cases rest.drop (rest.takeWhile fun x => x ≠ '>' && !Text.isBreak x).length with
    | nil => simp
    | cons d r =>
      by_cases hd : d = '>'
      · subst hd
        simp
      · have hd' : d.toLower ≠ '>' := mt (close d).mp hd
        simp [hd, hd']

theorem comment_folded (line : Int) (c : Cursor) :
    comment line c.folded = (comment line c).map Scanned.folded := by
  have semicolon : ∀ c : Char, c.toLower = ';' ↔ c = ';' := Text.toLower_eq_iff (by decide)
  have close : ∀ c : Char, c.toLower = ')' ↔ c = ')' := Text.toLower_eq_iff (by decide)
  cases hr : c.rest with
  | nil => simp [comment, hr, Except.map]
  | cons ch rest =>
    have hline := Text.takeWhile_folded (p := fun x => !Text.isBreak x) (fun x => by simp) rest
    have hbody := Text.takeWhile_folded (p := fun x => !Text.isBreak x && x ≠ ')')
      (fun x => by simp [close]) rest
    simp only [comment, Cursor.rest_folded, hr, Text.folded_cons, semicolon, hline, hbody,
      Text.length_folded, Text.drop_folded]
    split
    · exact congrArg Except.ok (found_folded c .comment line (ch :: _))
    · have unclosed := anomaly_folded c line
        (ch :: rest.takeWhile (fun x => !Text.isBreak x && x ≠ ')'))
        (.unterminatedComment (ch :: rest.takeWhile fun x => !Text.isBreak x && x ≠ ')'))
      have closed := found_folded c .comment line
        (ch :: rest.takeWhile (fun x => !Text.isBreak x && x ≠ ')') ++ [')'])
      cases rest.drop (rest.takeWhile fun x => !Text.isBreak x && x ≠ ')').length with
      | nil => simpa [Except.map, Problem.folded] using unclosed
      | cons d r =>
        by_cases hd : d = ')'
        · subst hd
          simpa [Except.map] using closed
        · have hd' : d.toLower ≠ ')' := mt (close d).mp hd
          simpa [Except.map, hd, hd', Problem.folded] using unclosed

theorem number_folded (line : Int) (c : Cursor) :
    number line c.folded = (number line c).folded := by
  have point := @Text.folded_eq_iff ['.'] (by decide) (numeral false c.rest)
  simp only [number, Cursor.rest_folded, numeral_folded, point]
  split
  · exact anomaly_folded c line _ .lonePoint
  · exact found_folded c .number line _

theorem parameter_folded (line : Int) (c : Cursor) :
    parameter line c.folded = (parameter line c).map Scanned.folded := by
  have opening : ∀ c : Char, c.toLower = '<' ↔ c = '<' := Text.toLower_eq_iff (by decide)
  cases hr : c.rest with
  | nil => simp [parameter, hr, Except.map]
  | cons ch rest =>
    have hname := angleName_folded (ch :: rest)
    have hdigits := Text.takeWhile_folded (p := Text.isDigit) (fun x => by simp) rest
    rw [Text.folded_cons] at hname
    simp only [parameter, Cursor.rest_folded, hr, Text.folded_cons, opening, hname,
      @Text.head?_folded_eq_some '<' (by decide), angleName_folded rest, hdigits]
    split
    · exact congrArg Except.ok (found_folded c .parameter line _)
    · split
      · exact congrArg Except.ok (found_folded c .parameter line (ch :: _))
      · exact congrArg Except.ok (found_folded c .parameter line (ch :: _))

theorem operator_folded (line : Int) (c : Cursor) :
    operator line c.folded = (operator line c).map (Option.map Scanned.folded) := by
  have same : ∀ d : Char, Text.isLetter d = false → ∀ c : Char, c.toLower = d ↔ c = d :=
    fun d hd => Text.toLower_eq_iff hd
  have star := same '*' (by decide)
  have one : ∀ (kind : TokenKind) (ch : Char), found c.folded kind line [ch.toLower] =
      (found c kind line [ch]).folded := fun kind ch => found_folded c kind line [ch]
  cases hr : c.rest with
  | nil => simp [operator, hr, Except.map]
  | cons ch rest =>
    by_cases double : ∃ r, ch :: rest = '*' :: '*' :: r
    · obtain ⟨r, hd⟩ := double
      obtain ⟨rfl, rfl⟩ := List.cons.inj hd
      simpa [operator, hr, Except.map] using found_folded c .operator line "**"
    · have double' : ∀ r, ch.toLower :: Text.folded rest ≠ '*' :: '*' :: r := by
        intro r h
        cases rest with
        | nil => simp at h
        | cons d rest => simp_all
      have hs : ∀ (c : Cursor) (ch : Char) (rest : Text), c.rest = ch :: rest →
          (∀ r, ch :: rest ≠ '*' :: '*' :: r) → operator line c =
            if ch = '%' then .ok (some (found c .word line [ch]))
            else if ch = '+' || ch = '-' || ch = '/' || ch = '*' then
              .ok (some (found c .operator line [ch]))
            else .ok none := by
        intro c ch rest h hne
        unfold operator
        rw [h]
        split
        · simp_all
        · simp_all
        · simp_all
      rw [hs c ch rest hr (fun r h => double ⟨r, h⟩),
        hs c.folded ch.toLower (Text.folded rest) (by simp [hr]) double']
      simp only [same '%' (by decide), same '+' (by decide), same '-' (by decide),
        same '/' (by decide), star, one]
      split
      · rfl
      · split <;> rfl

end Scan

/-! ## Words -/

@[simp] theorem Keyword.isKeyword_folded (word : Text) :
    isKeyword (Text.folded word) = isKeyword word := by
  simp [isKeyword]

@[simp] theorem Keyword.kindOf_folded (word : Text) :
    kindOf (Text.folded word) = kindOf word := by
  simp [kindOf]

theorem Keyword.longestUpTo_folded (n : Nat) (t : Text) :
    longestUpTo n (Text.folded t) = longestUpTo n t := by
  induction n with
  | zero => rfl
  | succ n ih => simp [longestUpTo, ih]

@[simp] theorem Keyword.longest_folded (t : Text) : longest (Text.folded t) = longest t := by
  simp [longest, longestUpTo_folded]

namespace Token

theorem segment_folded (line : Int) (t : Text) :
    segment line (Text.folded t) = (segment line t).map folded := by
  fun_induction segment line t with
  | case1 => simp [segment]
  | case2 c rest hl ih =>
    rw [Text.folded_cons, segment, ← Text.folded_cons, Keyword.longest_folded, hl]
    simp [ih, folded]
  | case3 c rest n hl ih =>
    have hkind := Keyword.kindOf_folded (c :: rest.take n)
    rw [Text.folded_cons] at hkind
    rw [Text.folded_cons, segment, ← Text.folded_cons, Keyword.longest_folded, hl]
    simp [ih, folded, hkind]

theorem refine_folded (t : Token) (previous : Option TokenKind) :
    t.folded.refine previous =
      ((t.refine previous).1.folded, (t.refine previous).2.map folded) := by
  obtain ⟨kind, value, line⟩ := t
  change refine ⟨kind, Text.folded value, line⟩ previous = _
  unfold refine
  dsimp only
  by_cases h : kind ≠ .function || previous.all TokenKind.precedesCall
  · rw [if_pos h, if_pos h]
    rfl
  · rw [if_neg h, if_neg h]
    match value with
    | [] | [_] | _ :: _ :: _ => rfl

end Token

/-! ## The lexer -/

namespace Lexer

/-- The lexer at the same place of the folded source. -/
def folded (l : Lexer) : Lexer where
  cursor := l.cursor.folded
  openBrackets := l.openBrackets
  queue := l.queue.map Token.folded
  previous := l.previous
  reports := l.reports.map Report.folded

/-- A token that was handed out and the lexer behind it, both folded. -/
def foldedStep (r : Token × Lexer) : Token × Lexer := (r.1.folded, r.2.folded)

theorem accept_folded (l : Lexer) (s : Scanned) :
    l.folded.accept s.folded = foldedStep (l.accept s) := by
  simp [accept, folded, Scanned.folded, foldedStep]

theorem map_accept_folded (l : Lexer) (s : Except Cursor.EndOfSource Scanned) :
    (s.map Scanned.folded).map l.folded.accept = (s.map l.accept).map foldedStep := by
  cases s with
  | error e => rfl
  | ok s => exact congrArg Except.ok (accept_folded l s)

theorem accept_found_folded (l : Lexer) (kind : TokenKind) (text : Text) :
    l.folded.accept (Scan.found l.cursor.folded kind l.cursor.line (Text.folded text)) =
      foldedStep (l.accept (Scan.found l.cursor kind l.cursor.line text)) := by
  rw [Scan.found_folded, accept_folded]

theorem read_folded (l : Lexer) : l.folded.read = l.read.map foldedStep := by
  have same : ∀ d : Char, Text.isLetter d = false → ∀ c : Char, c.toLower = d ↔ c = d :=
    fun d hd => Text.toLower_eq_iff hd
  cases hr : l.cursor.rest with
  | nil => simp [read, folded, hr, Except.map, foldedStep, Token.folded]
  | cons ch rest =>
    have hbreak := Scan.breakText_folded (ch :: rest)
    have hblanks := Text.takeWhile_folded (p := Text.isBlank) (fun x => by simp) (ch :: rest)
    have hletters := Text.takeWhile_folded (p := Scan.isWordChar)
      (fun x => by simp [Scan.isWordChar, same '$' (by decide)]) (ch :: rest)
    have hcursor : l.folded.cursor = l.cursor.folded := rfl
    have hbrackets : l.folded.openBrackets = l.openBrackets := rfl
    simp only [Text.folded_cons] at hbreak hblanks hletters
    simp only [read, hcursor, hbrackets, Cursor.rest_folded, hr, Text.folded_cons,
      Cursor.line_folded, hbreak, hblanks, hletters, Text.isBreak_toLower, Text.isBlank_toLower,
      Text.isDigit_toLower, same ';' (by decide), same '(' (by decide), same '.' (by decide),
      same '#' (by decide), same '<' (by decide), same '=' (by decide), same '[' (by decide),
      same ']' (by decide), Scan.comment_folded, Scan.number_folded, Scan.parameter_folded,
      Scan.operator_folded, Token.segment_folded]
    split
    · exact congrArg Except.ok (accept_found_folded l .endOfLine _)
    split
    · exact map_accept_folded l _
    split
    · exact congrArg Except.ok (accept_folded l _)
    split
    · exact map_accept_folded l _
    split
    · exact congrArg Except.ok (accept_found_folded l .assign [ch])
    split
    · exact congrArg Except.ok
        (accept_found_folded { l with openBrackets := l.openBrackets + 1 } .openBracket [ch])
    split
    · exact congrArg Except.ok
        (accept_found_folded { l with openBrackets := l.openBrackets - 1 } .closeBracket [ch])
    cases Scan.operator l.cursor.line l.cursor with
    | error e => rfl
    | ok found =>
      cases found with
      | some s => exact congrArg Except.ok (accept_folded l s)
      | none =>
        simp only [Except.map, Option.map_none]
        split
        · exact congrArg Except.ok (accept_found_folded l .unknown _)
        · cases Token.segment l.cursor.line ((ch :: rest).takeWhile Scan.isWordChar) with
          | nil => exact congrArg Except.ok (accept_found_folded l .unknown [ch])
          | cons token tokens =>
            have hskip :=
              Cursor.skip_folded l.cursor ((ch :: rest).takeWhile Scan.isWordChar).length
            simp [foldedStep, folded, Scan.letters, hr, hletters, hskip]

theorem pull_folded (l : Lexer) : l.folded.pull = l.pull.map foldedStep := by
  have hqueue : l.folded.queue = l.queue.map Token.folded := rfl
  unfold pull
  cases hq : l.queue with
  | nil => simp only [hqueue, hq, List.map_nil, read_folded]
  | cons token tokens => simp [hq, Except.map, foldedStep, folded]

theorem handOut_folded (l : Lexer) (token : Token) :
    l.folded.handOut token.folded = foldedStep (l.handOut token) := by
  cases hr : (token.refine l.previous).2 <;>
    simp [handOut, Token.refine_folded, hr, foldedStep, folded]

theorem next_folded (l : Lexer) : l.folded.next = l.next.map foldedStep := by
  unfold next
  rw [pull_folded]
  cases l.pull with
  | error e => rfl
  | ok r => exact congrArg Except.ok (handOut_folded r.2 r.1)

/-- A run is a step and, unless that hands out the end mark, the run behind it. -/
theorem run_eq (l : Lexer) : l.run =
    match l.next with
    | .error e => .error e
    | .ok (token, l') =>
      if token.kind = .endOfFile then .ok ([token], l')
      else l'.run.map fun r => (token :: r.1, r.2) := by
  rw [run]
  split
  · simp_all
  · rename_i token l' h
    simp only [h]
    split
    · rfl
    · cases l'.run <;> rfl

/-- Running a folded lexer gives the folded tokens. -/
theorem run_folded (l : Lexer) :
    l.folded.run = l.run.map fun r => (r.1.map Token.folded, r.2.folded) := by
  fun_induction run l with
  | case1 l e h => simp [run_eq l.folded, next_folded, h, Except.map]
  | case2 l token l' h ht => simp [run_eq l.folded, next_folded, h, Except.map, foldedStep, ht]
  | case3 l token l' h ht e hr ih =>
    rw [hr] at ih
    simp [run_eq l.folded, next_folded, h, Except.map, foldedStep, ht, ih]
  | case4 l token l' h ht tokens last hr ih =>
    rw [hr] at ih
    simp [run_eq l.folded, next_folded, h, Except.map, foldedStep, ht, ih]

end Lexer

end Gcode
