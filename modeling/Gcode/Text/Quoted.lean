import Gcode.Text.Printable

/-!
# Quoted texts

How a text is shown in a message: between single quotes, or between double quotes if it holds a
single one and no double one. Inside, the quote and the backslash are escaped, and a character
that cannot be shown as itself is written by name or by number.
-/

namespace Gcode.Text

/-- The quote that a text is shown between. -/
def quoteFor (t : Text) : Char := if t.contains '\'' && !t.contains '"' then '"' else '\''

/-- How a character is written between the given quotes. -/
def quotedChar (quote c : Char) : Text :=
  if c = quote || c = '\\' then ['\\', c]
  else if c = '\t' then "\\t"
  else if c = '\n' then "\\n"
  else if c = '\r' then "\\r"
  else if isPrintable c then [c]
  else if c.toNat < 0x100 then "\\x" ++ hex 2 c.toNat
  else if c.toNat < 0x10000 then "\\u" ++ hex 4 c.toNat
  else "\\U" ++ hex 8 c.toNat

/-- The text between quotes. -/
def quoted (t : Text) : Text :=
  let quote := quoteFor t
  quote :: t.flatMap (quotedChar quote) ++ [quote]

example : quoted "it's" = "\"it's\"" := by decide

example : quoted ['a', '\t', '\x7f', '\\'] = "'a\\t\\x7f\\\\'" := by decide +kernel

end Gcode.Text
