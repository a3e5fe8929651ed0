import Gcode.Text.Basic

/-!
# White space

The characters of Unicode that count as white space, and trimming by them. Spaces and tabs are
among them, and so are both characters of a line break.
-/

namespace Gcode.Text

/-- The code points of the white space beyond ASCII. -/
def wideSpaces : List Nat := [
  0x85, 0xA0, 0x1680, 0x2000, 0x2001, 0x2002, 0x2003, 0x2004, 0x2005, 0x2006, 0x2007, 0x2008,
  0x2009, 0x200A, 0x2028, 0x2029, 0x202F, 0x205F, 0x3000]

/-- A white-space character: a space, the controls from tab to carriage return, the four
separators U+001C to U+001F, and the spaces and separators beyond ASCII. -/
def isSpace (c : Char) : Bool :=
  let n := c.toNat
  if n < 128 then n = 32 || (9 ≤ n && n ≤ 13) || (28 ≤ n && n ≤ 31) else wideSpaces.contains n

theorem isSpace_of_isBlank {c : Char} (h : isBlank c = true) : isSpace c = true := by
  simp only [isBlank, Bool.or_eq_true, decide_eq_true_eq] at h
  rcases h with rfl | rfl <;> rfl

theorem isSpace_of_isBreak {c : Char} (h : isBreak c = true) : isSpace c = true := by
  simp only [isBreak, Bool.or_eq_true, decide_eq_true_eq] at h
  rcases h with rfl | rfl <;> rfl

/-- The text without the white space at its end. -/
def trimRight : Text → Text
  | [] => []
  | c :: rest =>
    match trimRight rest with
    | [] => if isSpace c then [] else [c]
    | kept => c :: kept

/-- The text without the white space at its start. -/
def trimLeft (t : Text) : Text := t.dropWhile isSpace

/-- The text without the white space at both ends. -/
def trim (t : Text) : Text := trimRight (trimLeft t)

end Gcode.Text
