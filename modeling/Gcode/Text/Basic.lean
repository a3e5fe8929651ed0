/-!
# Text

A text is the list of its characters, so that positions and lengths count characters and every
scan over a program is a recursion on a list. String literals stand for texts through a scoped
coercion.

## Main definitions

* `Text.isBlank`, `Text.isBlankOnly` — spaces and tabs, which a program may be laid out with.
* `Text.isBreak` — the two characters that line breaks are made of.
* `Text.ofNat`, `Text.ofInt`, `Text.hex` — numerals.
* `Text.joined` — parts with a separator between neighbours.
-/

namespace Gcode

/-- A sequence of characters. -/
abbrev Text := List Char

scoped instance : Coe String Text := ⟨String.toList⟩

namespace Text

/-- A space or a tab. -/
def isBlank (c : Char) : Bool := c = ' ' || c = '\t'

/-- Whether the text is made of spaces and tabs only; the empty text is. -/
def isBlankOnly (t : Text) : Bool := t.all isBlank

@[simp] theorem isBlankOnly_nil : isBlankOnly [] = true := rfl

@[simp] theorem isBlankOnly_cons (c : Char) (t : Text) :
    isBlankOnly (c :: t) = (isBlank c && isBlankOnly t) := rfl

/-- A carriage return or a line feed. -/
def isBreak (c : Char) : Bool := c = '\r' || c = '\n'

/-- A character that ends a line is no blank. -/
theorem not_isBlank_of_isBreak {c : Char} (h : isBreak c = true) : isBlank c = false := by
  simp only [isBreak, Bool.or_eq_true, decide_eq_true_eq] at h
  rcases h with rfl | rfl <;> rfl

/-- An ASCII letter. -/
def isLetter (c : Char) : Bool := ('a' ≤ c && c ≤ 'z') || ('A' ≤ c && c ≤ 'Z')

/-- An ASCII decimal digit. -/
def isDigit (c : Char) : Bool := '0' ≤ c && c ≤ '9'

/-- The decimal numeral of a natural number. -/
def ofNat (n : Nat) : Text := Nat.toDigits 10 n

/-- The decimal numeral of an integer, with a minus sign in front of a negative one. -/
def ofInt : Int → Text
  | .ofNat n => ofNat n
  | .negSucc n => '-' :: ofNat (n + 1)

/-- The lower-case hexadecimal numeral of `n`, filled up with zeros to `width` digits. -/
def hex (width n : Nat) : Text :=
  let digits := Nat.toDigits 16 n
  List.replicate (width - digits.length) '0' ++ digits

/-- The parts in order, with `separator` between neighbours. -/
def joined (separator : Text) : List Text → Text
  | [] => []
  | [part] => part
  | part :: next :: parts => part ++ separator ++ joined separator (next :: parts)

end Text

end Gcode
