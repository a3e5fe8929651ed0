import Gcode.Text.Basic

/-!
# Cursors

A cursor is a place in a source text with the number of the line it is on. It keeps the text that
lies ahead, which is the source from its position on; a position may lie behind the end of the
source, where nothing is ahead. Each of carriage return and line feed, alone or as a pair, ends
one line.

## Main statements

* `rest_skip` — skipping drops characters from the text ahead.
* `next_eq_error_iff` — reading fails exactly where nothing is ahead.
-/

namespace Gcode

/-- A place in a source text, and the number of its line. -/
structure Cursor where
  source : Text
  position : Nat
  line : Int
  /-- The text ahead. -/
  rest : Text
  rest_eq : rest = source.drop position

namespace Cursor

/-- Reading was tried where nothing is ahead. -/
structure EndOfSource where
  position : Nat
  line : Int
deriving DecidableEq, Repr

/-- The wording of the refusal. -/
def EndOfSource.message (e : EndOfSource) : Text :=
  "CharacterStreamError: Attempted to read past end of source at position=<"
    ++ Text.ofNat e.position ++ ">, line=<" ++ Text.ofInt e.line ++ ">"

/-- The cursor at a position of a source, on a line of the given number. -/
def ofSource (source : Text) (position : Nat) (line : Int) : Cursor :=
  ⟨source, position, line, source.drop position, rfl⟩

/-- The cursor at the start of a source. -/
def start (source : Text) : Cursor := ⟨source, 0, 1, source, rfl⟩

/-- Whether nothing is ahead. -/
def atEnd (c : Cursor) : Bool := c.rest.isEmpty

/-- The character at an offset from the cursor, which may be negative. -/
def peek (c : Cursor) (offset : Int) : Option Char :=
  let index := c.position + offset
  if index < 0 then none else c.source[index.toNat]?

/-- Whether a line ends with the character `ch`, which `rest` follows. -/
def endsLine (ch : Char) (rest : Text) : Bool :=
  ch = '\n' || (ch = '\r' && rest.head? ≠ some '\n')

/-- The cursor behind the next character. -/
def step (c : Cursor) : Cursor :=
  match h : c.rest with
  | [] => c
  | ch :: rest =>
    { source := c.source
      position := c.position + 1
      line := if endsLine ch rest then c.line + 1 else c.line
      rest := rest
      rest_eq := by
        have := c.rest_eq
        rw [h] at this
        rw [← List.drop_drop, ← this, List.drop_one, List.tail_cons] }

/-- The cursor behind the next `n` characters. -/
def skip (c : Cursor) : Nat → Cursor
  | 0 => c
  | n + 1 => skip c.step n

/-- The refusal to read from here. -/
def endOfSource (c : Cursor) : EndOfSource := ⟨c.position, c.line⟩

/-- The next character and the cursor behind it. -/
def next (c : Cursor) : Except EndOfSource (Char × Cursor) :=
  match c.rest with
  | [] => .error c.endOfSource
  | ch :: _ => .ok (ch, c.step)

/-! ## What lies ahead -/

@[simp] theorem rest_start (source : Text) : (start source).rest = source := rfl

@[simp] theorem rest_step (c : Cursor) : c.step.rest = c.rest.tail := by
  unfold step
  split <;> simp_all

/-- Skipping drops characters from the text ahead. -/
@[simp] theorem rest_skip (c : Cursor) (n : Nat) : (c.skip n).rest = c.rest.drop n := by
  induction n generalizing c with
  | zero => rfl
  | succ n ih => simp [skip, ih]

/-- Reading fails exactly where nothing is ahead. -/
theorem next_eq_error_iff {c : Cursor} {e : EndOfSource} :
    c.next = .error e ↔ c.rest = [] ∧ e = c.endOfSource := by
  unfold next
  split <;> simp_all [eq_comm]

end Cursor

end Gcode
