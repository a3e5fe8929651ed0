import Gcode.Text.WhiteSpace

/-!
# Pages

A page is text that is written piece by piece. A piece that opens a statement is indented where a
line begins; elsewhere a single space separates it from the piece before it, which loses the
white space at its end.

## Main statements

* `text_put` — putting a piece on a page puts it at the end of the text.
-/

namespace Gcode.Layout

/-- The pieces written so far, the last one first. -/
structure Page where
  pieces : List Text
deriving DecidableEq, Repr

namespace Page

/-- The page on which nothing is written. -/
def blank : Page := ⟨[]⟩

/-- All that is written on the page. -/
def text (page : Page) : Text := page.pieces.reverse.flatten

/-- The page with one more piece at the end. -/
def put (page : Page) (piece : Text) : Page := ⟨piece :: page.pieces⟩

/-- Whether a line begins behind the last piece. -/
def atLineStart (page : Page) : Bool :=
  match page.pieces with
  | [] => true
  | last :: _ => last.getLast?.any Text.isBreak

/-- The page on which a statement begins: behind an indentation of the given width at the start of
a line, else behind a single space. Without an indentation, nothing is written at the start of a
line; an indentation of no width is written as an empty piece. -/
def beginStatement (width level : Nat) (page : Page) : Page :=
  if page.atLineStart then
    if level = 0 then page else page.put (List.replicate (width * level) ' ')
  else
    match page.pieces with
    | [] => page
    | last :: pieces => ⟨" " :: Text.trimRight last :: pieces⟩

@[simp] theorem text_blank : blank.text = [] := rfl

/-- Putting a piece on a page puts it at the end of the text. -/
@[simp] theorem text_put (page : Page) (piece : Text) :
    (page.put piece).text = page.text ++ piece := by
  simp [text, put]

end Page

end Gcode.Layout
