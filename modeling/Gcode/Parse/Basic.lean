import Gcode.Diagnostic.Problem
import Gcode.Node.Height
import Gcode.Token.Keyword

/-!
# Reading a token list

The parser reads the tokens up to the first end mark, which it never passes. A parse function
takes the tokens ahead and returns a value, the tokens that it left, and what it reported. That
what is left is an end part of what was ahead belongs to the result, so that every parse function
only moves forward by its type.

## Main definitions

* `Setting` — what stays the same during a parse: the end mark, and the limits.
* `Parsed` — the result of a parse function.
* `current`, `advance`, `expect` — the token at hand.
* `restOfLine`, `cutOff`, `bracketGroup` — runs of tokens that are kept as text.
-/

namespace Gcode

/-- What stays the same during a parse. -/
structure Setting where
  /-- The number of tokens before the end mark. -/
  total : Nat
  /-- The text of the end mark. -/
  endValue : Text
  /-- The line of the end mark. -/
  endLine : Int
  /-- The most rounds that a loop may take. -/
  maxRounds : Int
  /-- The deepest nesting of blocks, brackets, signs and chains of operators. -/
  maxDepth : Int
deriving DecidableEq, Repr

namespace Setting

/-- The end mark. -/
def stop (s : Setting) : Token := ⟨.endOfFile, s.endValue, s.endLine⟩

/-- The position of the first of the tokens ahead. -/
def position (s : Setting) (ahead : List Token) : Nat := s.total - ahead.length

end Setting

/-- What a parse function made of the tokens ahead: a value, the tokens that are left, and the
reports in order. -/
structure Parsed (α : Type) (ahead : List Token) where
  value : α
  rest : List Token
  reports : List Report
  /-- What is left is an end part of what was ahead. -/
  suffix : rest <:+ ahead

namespace Parsed

variable {α β : Type} {ahead : List Token}

/-- A value for which no token is read. -/
def pure (value : α) (ahead : List Token) : Parsed α ahead :=
  ⟨value, ahead, [], List.suffix_rfl⟩

/-- A value for which no token is read, with a report. -/
def reporting (value : α) (report : Report) (ahead : List Token) : Parsed α ahead :=
  ⟨value, ahead, [report], List.suffix_rfl⟩

/-- The result with its value mapped. -/
def map (f : α → β) (p : Parsed α ahead) : Parsed β ahead :=
  ⟨f p.value, p.rest, p.reports, p.suffix⟩

/-- The result of what is read behind `first`, together with the reports of `first`. -/
def behind (first : Parsed α ahead) (second : Parsed β first.rest) : Parsed β ahead :=
  ⟨second.value, second.rest, first.reports ++ second.reports, second.suffix.trans first.suffix⟩

/-- The result of what is read behind one token. -/
def behindToken (t : Token) {rest : List Token} (p : Parsed α rest) : Parsed α (t :: rest) :=
  ⟨p.value, p.rest, p.reports, p.suffix.trans (List.suffix_cons t rest)⟩

/-- The result with one more report in front. -/
def withReport (report : Report) (p : Parsed α ahead) : Parsed α ahead :=
  ⟨p.value, p.rest, report :: p.reports, p.suffix⟩

theorem length_rest_le (p : Parsed α ahead) : p.rest.length ≤ ahead.length := p.suffix.length_le

end Parsed

namespace Parse

variable (s : Setting)

/-! ## The token at hand -/

/-- The first token ahead, or the end mark if there is none. -/
def current (ahead : List Token) : Token := ahead.headD s.stop

/-- Reads the token at hand; the end mark stays. -/
def advance (ahead : List Token) : Parsed Token ahead :=
  ⟨current s ahead, ahead.tail, [], List.tail_suffix ahead⟩

/-- A token other than the end mark is read. -/
theorem length_advance_lt {ahead : List Token} (h : (current s ahead).kind ≠ .endOfFile) :
    (advance s ahead).rest.length < ahead.length := by
  cases ahead with
  | nil => exact absurd rfl h
  | cons t rest => simp [advance]

/-- Reads a token of the given class, or reports that there is none and reads nothing. -/
def expect (kind : TokenKind) (ahead : List Token) : Parsed (Option Token) ahead :=
  let found := current s ahead
  if found.kind = kind then (advance s ahead).map some
  else Parsed.reporting none ⟨.missingToken kind found, found.line⟩ ahead

/-! ## Classification -/

/-- Whether the token is the word that begins an o-word line. -/
def isOWord (t : Token) : Bool := t.kind = .word && Text.lower t.value = "o"

/-- Whether an assignment begins here: a parameter and an equals sign. -/
def startsAssignment (ahead : List Token) : Bool :=
  (current s ahead).kind = .parameter && (current s ahead.tail).kind = .assign

/-- Whether a line of commands ends here. -/
def endsCommands (ahead : List Token) : Bool :=
  let t := current s ahead
  t.kind = .endOfFile || t.kind = .endOfLine || t.kind = .flow || isOWord t
    || startsAssignment s ahead

/-- Whether the token is a sign that may stand in front of an operand. -/
def isSign (t : Token) : Bool := t.kind = .operator && Keyword.isSign t.value

/-- Whether a value begins with the token. -/
def startsValue (t : Token) : Bool :=
  t.kind = .number || t.kind = .parameter || t.kind = .openBracket || t.kind = .function
    || isSign t

/-- Whether the token is of a class of operators. -/
def isOperator (t : Token) : Bool :=
  t.kind = .operator || t.kind = .comparison || t.kind = .logical

/-- Whether the token is an operator that binds at least as tight as `least`. -/
def binds (t : Token) (least : Int) : Bool :=
  isOperator t && least ≤ (Keyword.precedence t.value : Int)

/-! ## Runs of tokens that are kept as text -/

/-- The text up to the end of the line. -/
def restOfLine : (ahead : List Token) → Parsed Text ahead
  | [] => Parsed.pure [] []
  | t :: rest =>
    if t.kind = .endOfLine then Parsed.pure [] (t :: rest)
    else ((restOfLine rest).map (t.value ++ ·)).behindToken t

/-- The text up to the end mark. -/
def restOfProgram : (ahead : List Token) → Parsed Text ahead
  | [] => Parsed.pure [] []
  | t :: rest => ((restOfProgram rest).map (t.value ++ ·)).behindToken t

/-- The text up to where a line of commands would end, to a comment, or to a closing bracket
that none of the opening ones in the text matches; `level` of these are open. -/
def cutOffText (level : Nat) : (ahead : List Token) → Parsed Text ahead
  | [] => Parsed.pure [] []
  | t :: rest =>
    if endsCommands s (t :: rest) || t.kind = .comment || (t.kind = .closeBracket && level = 0)
    then Parsed.pure [] (t :: rest)
    else
      let level :=
        if t.kind = .openBracket then level + 1
        else if t.kind = .closeBracket then level - 1
        else level
      ((cutOffText level rest).map (t.value ++ ·)).behindToken t

/-- The text up to the closing bracket that matches the first opening one, or to the end of the
line; `level` brackets are open. -/
def groupText (level : Int) : (ahead : List Token) → Parsed Text ahead
  | [] => Parsed.pure [] []
  | t :: rest =>
    if t.kind = .endOfLine then Parsed.pure [] (t :: rest)
    else if t.kind = .openBracket then
      ((groupText (level + 1) rest).map (t.value ++ ·)).behindToken t
    else if t.kind = .closeBracket then
      if level = 1 then (Parsed.pure t.value rest).behindToken t
      else ((groupText (level - 1) rest).map (t.value ++ ·)).behindToken t
    else ((groupText level rest).map (t.value ++ ·)).behindToken t

/-- The rest of an expression that nests too deep, behind `text`, which was read already. -/
def cutOff (text : Text) (ahead : List Token) : Parsed Node ahead :=
  (cutOffText s 0 ahead).map fun more => .unknown (text ++ more) (current s ahead).line

/-- A group of brackets that nests too deep. -/
def bracketGroup (ahead : List Token) : Parsed Node ahead :=
  (groupText 0 ahead).map fun text => .unknown text (current s ahead).line

/-- The token at hand, whatever it is, and the rest of its line. Other text than blanks is
reported. -/
def unknown (ahead : List Token) : Parsed Node ahead :=
  let first := current s ahead
  let more := restOfLine ahead.tail
  let text := first.value ++ more.value
  ⟨.unknown text first.line, more.rest,
    if Text.isBlankOnly text then [] else [⟨.strayText text, first.line⟩],
    more.suffix.trans (List.tail_suffix ahead)⟩

/-- All that is left of the program, line breaks included. -/
def remainder (ahead : List Token) : Parsed Node ahead :=
  (restOfProgram ahead).map fun text => .unknown text (current s ahead).line

end Parse

end Gcode
