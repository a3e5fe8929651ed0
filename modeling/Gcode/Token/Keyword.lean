import Gcode.Text.Casing
import Gcode.Token.Basic

/-!
# Keywords

The words of several letters that the dialect knows, each with the class of its token, the pairs
of keywords that open and close a block, and the precedence of operators. Keywords are listed in
upper case and compared with the upper case of a text.
-/

namespace Gcode.Keyword

/-- The keywords of flow control. -/
def flow : List Text :=
  ["IF", "ELSEIF", "ELSE", "ENDIF", "WHILE", "ENDWHILE", "DO", "SUB", "ENDSUB", "CALL", "RETURN",
    "REPEAT", "ENDREPEAT", "BREAK", "CONTINUE"]

/-- The logical operators. -/
def logical : List Text := ["AND", "OR", "XOR"]

/-- The comparison operators. -/
def comparison : List Text := ["LT", "LE", "GT", "GE", "EQ", "NE"]

/-- The arithmetic operators of more than one character. -/
def arithmetic : List Text := ["**", "MOD"]

/-- The names of functions. -/
def function : List Text :=
  ["ATAN", "ABS", "ACOS", "ASIN", "COS", "EXP", "FIX", "FUP", "ROUND", "LN", "SIN", "SQRT", "TAN",
    "EXISTS"]

/-- All keywords. -/
def all : List Text := flow ++ logical ++ comparison ++ arithmetic ++ function

/-- The length of the longest keyword. -/
def maxLength : Nat := 9

theorem length_le_maxLength : ∀ w ∈ all, w.length ≤ maxLength := by decide

/-- Whether the text is a keyword, in any case. -/
def isKeyword (word : Text) : Bool := all.contains (Text.upper word)

/-- The class of a word: that of the keyword it is, in any case, else a plain word. -/
def kindOf (word : Text) : TokenKind :=
  let w := Text.upper word
  if function.contains w then .function
  else if flow.contains w then .flow
  else if logical.contains w then .logical
  else if comparison.contains w then .comparison
  else if arithmetic.contains w then .operator
  else .word

/-! ## Blocks -/

/-- The keyword that closes a block, by the keyword that opens it. -/
def closing? (keyword : Text) : Option Text :=
  if keyword = "IF" then some "ENDIF"
  else if keyword = "WHILE" then some "ENDWHILE"
  else if keyword = "DO" then some "WHILE"
  else if keyword = "SUB" then some "ENDSUB"
  else if keyword = "REPEAT" then some "ENDREPEAT"
  else none

/-- Whether the keyword marks a branch of a conditional. -/
def isBranch (keyword : Text) : Bool := keyword = "ELSE" || keyword = "ELSEIF"

/-! ## Operators -/

/-- The precedence of each operator; a higher one binds tighter. -/
def precedences : List (Text × Nat) :=
  [("OR", 1), ("XOR", 1), ("AND", 2), ("LT", 4), ("LE", 4), ("EQ", 4), ("NE", 4), ("GT", 4),
    ("GE", 4), ("+", 5), ("-", 5), ("*", 6), ("/", 6), ("MOD", 6), ("**", 7)]

/-- The precedence of an operator in any case, 0 for a text that is none. -/
def precedence (operator : Text) : Nat := (precedences.lookup (Text.upper operator)).getD 0

/-- Whether the text is an operator that may stand in front of an operand. -/
def isSign (operator : Text) : Bool := operator = "+" || operator = "-"

end Gcode.Keyword
