import Gcode.Text.Basic

/-!
# Lines

A text is split at its line breaks: a carriage return and a line feed that follow each other are
one break, and each of them alone is one too.

## Main statements

* `flatMap_lines` — the lines hold the text, each character once and in order.
-/

namespace Gcode

/-- A line: its characters, and the break that ends it, which only the last line lacks. -/
structure Line where
  content : Text
  ending : Text
deriving DecidableEq, Repr

namespace Line

/-- The line as it stands in the text. -/
def text (line : Line) : Text := line.content ++ line.ending

/-- The line with one more character in front. -/
def cons (c : Char) (line : Line) : Line := { line with content := c :: line.content }

@[simp] theorem text_cons (c : Char) (line : Line) : (cons c line).text = c :: line.text := rfl

end Line

/-- The lines of a text, of which there is at least one. -/
def lines : Text → List Line
  | [] => [⟨[], []⟩]
  | '\r' :: '\n' :: rest => ⟨[], ['\r', '\n']⟩ :: lines rest
  | c :: rest =>
    if Text.isBreak c then ⟨[], [c]⟩ :: lines rest
    else
      match lines rest with
      | [] => [⟨[c], []⟩]
      | line :: more => line.cons c :: more

/-- The lines hold the text. -/
theorem flatMap_lines (t : Text) : (lines t).flatMap Line.text = t := by
  fun_induction lines t with
  | case1 => rfl
  | case2 rest ih => simp [Line.text, ih]
  | case3 c rest _ _ ih => simp [Line.text, ih]
  | case4 c rest _ _ hl ih =>
    rw [hl] at ih
    simp [Line.text, ← ih]
  | case5 c rest _ _ line more hl ih =>
    rw [hl] at ih
    simp [← ih]

end Gcode
