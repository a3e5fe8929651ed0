import Gcode.Source.Early
import Gcode.Token.Lexer

/-!
# Lexers that begin before the start

Where a source is read from before its start, a lexer cannot see the characters. It hands out each
of them as an operator. A scan that is begun there takes its first character without looking, and
goes on as it does where no character is in sight.

## Main definitions

* `EarlyLexer` — a lexer with a lead.
* `EarlyLexer.next`, `EarlyLexer.run` — the next token, and all tokens.

## Main statements

* `next_none` — without a lead, the next token is that of the lexer.
-/

namespace Gcode

open EarlyCursor (ReadError)

/-- A lexer, and what is read before it gets its turn. -/
structure EarlyLexer where
  lead : Lead
  lexer : Lexer

namespace EarlyLexer

/-- The lexer that reads from a cursor on. -/
def ofCursor (c : EarlyCursor) : EarlyLexer := ⟨c.lead, Lexer.ofCursor c.cursor⟩

/-- The lexer that reads a program. -/
def ofSource (source : Text) : EarlyLexer := ⟨.none, Lexer.ofSource source⟩

/-- Where the lexer stands. -/
def cursor (l : EarlyLexer) : EarlyCursor := ⟨l.lead, l.lexer.cursor⟩

/-- The lexer at another place. -/
def moved (l : EarlyLexer) (c : EarlyCursor) : EarlyLexer :=
  ⟨c.lead, { l.lexer with cursor := c.cursor }⟩

/-- A token of the given text that begins here, and the lexer behind it. -/
def found (l : EarlyLexer) (kind : TokenKind) (text : Text) : Token × EarlyLexer :=
  (⟨kind, text, l.lexer.cursor.line⟩, l.moved (l.cursor.skip text.length))

/-- The lexer without a lead behind the token that a scan found. -/
def accept (l : EarlyLexer) (s : Scanned) : Token × EarlyLexer :=
  let taken := l.lexer.accept s
  (taken.1, ⟨.none, taken.2⟩)

/-- The result of reading at least one character: by `early` from the first of those that are not
seen and the others, or else by `plain`. -/
def reading {α : Type} (l : EarlyLexer) (early : Char → Text → α)
    (plain : Except Cursor.EndOfSource α) : Except ReadError α :=
  if l.lead.beyond ≠ 0 then .error .beyondSource
  else
    match l.lead.unseen with
    | ch :: unseen => .ok (early ch unseen)
    | [] => plain.mapError .endOfSource

/-! ## Scans -/

/-- The line break here, or the next character if it is not seen. -/
def lineBreak (l : EarlyLexer) : Except ReadError (Text × EarlyLexer) :=
  l.reading (fun ch _ => ([ch], l.moved l.cursor.step))
    ((Scan.lineBreak l.lexer.cursor).map fun found => (found.1, l.moved ⟨.none, found.2⟩))

/-- The run of letters here, which is empty where nothing is seen. -/
def letters (l : EarlyLexer) : Text × EarlyLexer :=
  if l.lead.length ≠ 0 then ([], l)
  else
    let found := Scan.letters l.lexer.cursor
    (found.1, l.moved ⟨.none, found.2⟩)

/-- A number, which is empty where nothing is seen. -/
def number (l : EarlyLexer) : Token × EarlyLexer :=
  if l.lead.length ≠ 0 then l.found .number []
  else l.accept (Scan.number l.lexer.cursor.line l.lexer.cursor)

/-- A parameter: behind a character that is not seen, what is seen at the start counts. -/
def parameter (l : EarlyLexer) : Except ReadError (Token × EarlyLexer) :=
  let rest := l.lexer.cursor.rest
  l.reading
    (fun ch unseen =>
      if !unseen.isEmpty then l.found .parameter [ch]
      else if rest.head? = some '<' then l.found .parameter (ch :: Scan.angleName rest)
      else l.found .parameter (ch :: rest.takeWhile Text.isDigit))
    ((Scan.parameter l.lexer.cursor.line l.lexer.cursor).map l.accept)

/-- An operator: any character that is not seen is one. -/
def operator (l : EarlyLexer) : Except ReadError (Option (Token × EarlyLexer)) :=
  l.reading (fun ch _ => some (l.found .operator [ch]))
    ((Scan.operator l.lexer.cursor.line l.lexer.cursor).map (·.map l.accept))

/-- A comment. Line breaks that are not seen do not end it. -/
def comment (l : EarlyLexer) : Except ReadError (Token × EarlyLexer) :=
  let rest := l.lexer.cursor.rest
  l.reading
    (fun ch unseen =>
      if ch = ';' then
        l.found .comment (ch :: unseen ++ rest.takeWhile fun x => !Text.isBreak x)
      else if unseen.contains ')' then
        l.found .comment (ch :: unseen.takeWhile (· ≠ ')') ++ [')'])
      else
        let body := rest.takeWhile fun x => !Text.isBreak x && x ≠ ')'
        match rest.drop body.length with
        | ')' :: _ => l.found .comment (ch :: unseen ++ body ++ [')'])
        | _ =>
          let text := ch :: unseen ++ body
          let report : Report := ⟨.unterminatedComment text, l.lexer.cursor.line⟩
          let lexer := { l.lexer with reports := l.lexer.reports ++ [report] }
          { l with lexer := lexer }.found .unknown text)
    ((Scan.comment l.lexer.cursor.line l.lexer.cursor).map l.accept)

/-! ## Tokens -/

/-- The next token. -/
def next (l : EarlyLexer) : Except ReadError (Token × EarlyLexer) :=
  if l.lead.length ≠ 0 && l.lexer.queue.isEmpty then
    l.reading
      (fun ch _ =>
        let found := l.found .operator [ch]
        let handed := found.2.lexer.handOut found.1
        (handed.1, { found.2 with lexer := handed.2 }))
      (.error l.lexer.cursor.endOfSource)
  else
    match l.lexer.next with
    | .error e => .error (.endOfSource e)
    | .ok (token, lexer) => .ok (token, { l with lexer := lexer })

/-- The next `n` tokens, and the lexer behind them. -/
def take (l : EarlyLexer) : Nat → Except ReadError (List Token × EarlyLexer)
  | 0 => .ok ([], l)
  | n + 1 =>
    match l.next with
    | .error e => .error e
    | .ok (token, l) => (take l n).map fun taken => (token :: taken.1, taken.2)

/-- All tokens from here up to the end mark, and the lexer behind it. -/
def run (l : EarlyLexer) : Except ReadError (List Token × EarlyLexer) :=
  match l.take l.lead.length with
  | .error e => .error e
  | .ok (early, l) =>
    match l.lexer.run with
    | .error e => .error (.endOfSource e)
    | .ok (tokens, lexer) => .ok (early ++ tokens, ⟨.none, lexer⟩)

/-- Without a lead, the next token is that of the lexer. -/
theorem next_none (lexer : Lexer) :
    next ⟨.none, lexer⟩ =
      match lexer.next with
      | .ok (token, lexer) => .ok (token, ⟨.none, lexer⟩)
      | .error e => .error (.endOfSource e) := by
  simp only [next, Lead.none, Lead.length]
  cases lexer.next <;> rfl

end EarlyLexer

end Gcode
