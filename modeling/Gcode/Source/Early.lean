import Gcode.Source.Cursor

/-!
# Reading from before the start

A position below 0 counts from the end of a source. From there the characters up to the end are
read first, and then the source from its start. Until the start is reached nothing can be seen by
looking ahead, and a position further back than the source is long holds no character at all.

## Main definitions

* `Lead` — what is read before the start.
* `EarlyCursor` — a cursor with a lead.

## Main statements

* `next_none` — without a lead, a cursor is read as it stands.
-/

namespace Gcode

/-- What is read before the start of a source: the number of positions that hold no character, and
the characters that cannot be seen. -/
structure Lead where
  beyond : Nat
  unseen : Text
deriving DecidableEq, Repr

namespace Lead

/-- The lead of a reading that begins at or behind the start. -/
def none : Lead := ⟨0, []⟩

/-- The lead from a position of a source on. -/
def ofPosition (source : Text) (position : Int) : Lead :=
  let n := (-position).toNat
  ⟨n - source.length, source.drop (source.length - n)⟩

/-- The number of positions before the start. -/
def length (lead : Lead) : Nat := lead.beyond + lead.unseen.length

end Lead

/-- A cursor, and what is read before it gets its turn. -/
structure EarlyCursor where
  lead : Lead
  cursor : Cursor

namespace EarlyCursor

/-- Why no character can be read. -/
inductive ReadError
  | endOfSource (refusal : Cursor.EndOfSource)
  /-- The position is further back than the source is long. -/
  | beyondSource
deriving DecidableEq, Repr

/-- The wording of the refusal. -/
def ReadError.message : ReadError → Text
  | .endOfSource refusal => refusal.message
  | .beyondSource => "string index out of range"

/-- The cursor at a position of a source, which may be below 0, on a line of the given number. -/
def ofSource (source : Text) (position line : Int) : EarlyCursor :=
  ⟨Lead.ofPosition source position, Cursor.ofSource source position.toNat line⟩

/-- The position, below 0 as long as there is a lead. -/
def position (c : EarlyCursor) : Int :=
  if c.lead.length = 0 then c.cursor.position else -(c.lead.length : Int)

/-- Whether nothing is ahead. -/
def atEnd (c : EarlyCursor) : Bool := c.lead.length = 0 && c.cursor.atEnd

/-- The character at an offset from the position, unless that is below 0. -/
def peek (c : EarlyCursor) (offset : Int) : Option Char :=
  let index := c.position + offset
  if index < 0 then none else c.cursor.source[index.toNat]?

/-- The cursor behind the next character that can be read. A carriage return ends its line if no
line feed is seen behind it. -/
def step (c : EarlyCursor) : EarlyCursor :=
  match c.lead.unseen with
  | [] => { c with cursor := c.cursor.step }
  | ch :: unseen =>
    let seen := if unseen.isEmpty then c.cursor.rest else []
    let line := if Cursor.endsLine ch seen then c.cursor.line + 1 else c.cursor.line
    ⟨{ c.lead with unseen := unseen }, { c.cursor with line := line }⟩

/-- The cursor behind the next `n` characters. -/
def skip (c : EarlyCursor) : Nat → EarlyCursor
  | 0 => c
  | n + 1 => skip c.step n

/-- The next character and the cursor behind it. -/
def next (c : EarlyCursor) : Except ReadError (Char × EarlyCursor) :=
  if c.lead.beyond ≠ 0 then .error .beyondSource
  else
    match c.lead.unseen ++ c.cursor.rest with
    | [] => .error (.endOfSource c.cursor.endOfSource)
    | ch :: _ => .ok (ch, c.step)

/-- Without a lead, a cursor is read as it stands. -/
theorem next_none (cursor : Cursor) :
    next ⟨.none, cursor⟩ =
      match cursor.next with
      | .ok (ch, cursor) => .ok (ch, ⟨.none, cursor⟩)
      | .error e => .error (.endOfSource e) := by
  cases h : cursor.rest <;> simp [next, Cursor.next, Lead.none, step, h]

end EarlyCursor

end Gcode
