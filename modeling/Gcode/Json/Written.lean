import Gcode.Json.Basic

/-!
# Writing JSON

JSON text with each element and member on a line of its own, indented by the depth. Characters
other than the printable ones of ASCII are escaped by name or by their UTF-16 units.

## Main definitions

* `Json.written` — the text of a value.
-/

namespace Gcode.Json

/-- The escape of a UTF-16 unit. -/
def unitEscape (unit : Nat) : Text := "\\u" ++ Text.hex 4 unit

/-- How a character is written in a string. A character beyond U+FFFF is written as its high and
its low surrogate. -/
def writtenChar (c : Char) : Text :=
  if c = '"' then "\\\""
  else if c = '\\' then "\\\\"
  else if c = '\n' then "\\n"
  else if c = '\r' then "\\r"
  else if c = '\t' then "\\t"
  else if c = '\x08' then "\\b"
  else if c = '\x0c' then "\\f"
  else if ' ' ≤ c && c ≤ '~' then [c]
  else if c.toNat < 0x10000 then unitEscape c.toNat
  else
    let n := c.toNat - 0x10000
    unitEscape (0xD800 + n / 0x400) ++ unitEscape (0xDC00 + n % 0x400)

/-- A string between its quotes. -/
def writtenString (t : Text) : Text := "\"" ++ t.flatMap writtenChar ++ "\""

/-- A line break and the indentation of a depth. -/
def newline (width depth : Nat) : Text := '\n' :: List.replicate (width * depth) ' '

/-- What stands in front of a closing mark: nothing if there are no parts, else a line break. -/
def closing (width depth : Nat) (none : Bool) : Text := if none then [] else newline width depth

variable (width : Nat)

mutual

/-- The text of a value at a depth, with `after` behind it. -/
def writtenAt (depth : Nat) (after : Text) : Json → Text
  | .null => "null" ++ after
  | .bool b => (if b then "true" else "false") ++ after
  | .number n => Text.ofInt n ++ after
  | .string t => writtenString t ++ after
  | .array elements =>
    '[' :: elementsAt (depth + 1) [] (closing width depth elements.isEmpty ++ ']' :: after) elements
  | .object members =>
    '\x7b' :: membersAt (depth + 1) [] (closing width depth members.isEmpty ++ '\x7d' :: after)
      members

/-- The texts of elements, each on a line of its own behind a mark, with `after` behind them. The
mark of all but the first is a comma. -/
def elementsAt (depth : Nat) (mark after : Text) : List Json → Text
  | [] => after
  | element :: elements =>
    mark ++ newline width depth ++ writtenAt depth (elementsAt depth "," after elements) element

/-- The texts of members, each on a line of its own behind a mark, with `after` behind them. The
mark of all but the first is a comma. -/
def membersAt (depth : Nat) (mark after : Text) : List (Text × Json) → Text
  | [] => after
  | (name, value) :: members =>
    mark ++ newline width depth ++ writtenString name ++ ": "
      ++ writtenAt depth (membersAt depth "," after members) value

end

/-- The text of a value, indented by `width` spaces a level. A width below 0 counts as 0. -/
def written (width : Int) (j : Json) : Text := writtenAt width.toNat 0 [] j

end Gcode.Json
