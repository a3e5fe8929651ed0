import Gcode.Text.Digit
import Gcode.Text.WhiteSpace

/-!
# Integers written by a user

An integer is an optional sign and decimal digits of any script, with single underscores allowed
between digits and white space around the whole. A numeral of more than 4300 digits is refused.
-/

namespace Gcode.Text

/-- The most digits a numeral may have. -/
def maxDigits : Nat := 4300

/-- White space that may stand around an integer: all but the separators U+001C to U+001F. -/
def isMargin (c : Char) : Bool := isSpace c && !(28 ≤ c.toNat && c.toNat ≤ 31)

/-- The digits of a numeral, most significant first, read to the end of the text. Single
underscores may stand between digits: `digit` tells that the last character was a digit. -/
def digits? (digit : Bool) : Text → Option (List Nat)
  | [] => if digit then some [] else none
  | c :: rest =>
    if c = '_' then if digit then digits? false rest else none
    else do
      let d ← digitValue? c
      let ds ← digits? true rest
      return d :: ds

/-- The number that a list of decimal digits stands for. -/
def valueOf (digits : List Nat) : Nat := digits.foldl (fun n d => 10 * n + d) 0

/-- The natural number that a numeral without a sign stands for. -/
def nat? (t : Text) : Option Nat := do
  let digits ← digits? false t
  if digits.length ≤ maxDigits then some (valueOf digits) else none

/-- The integer that a text stands for. -/
def int? (t : Text) : Option Int :=
  let body := ((t.dropWhile isMargin).reverse.dropWhile isMargin).reverse
  match body with
  | '-' :: rest => (nat? rest).map fun n => -(n : Int)
  | '+' :: rest => (nat? rest).map Int.ofNat
  | rest => (nat? rest).map Int.ofNat

end Gcode.Text
