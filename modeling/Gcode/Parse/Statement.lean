import Gcode.Node.Label
import Gcode.Parse.Expression
import Gcode.Parse.Loop

/-!
# Statements

A statement is a line of commands, an assignment, a comment, a line break, an o-word line, or
text that no statement can hold. An o-word line whose keyword opens a block takes all the
statements up to the first line that closes it: an o-word with a matching label and the closing
keyword. That line is found by reading ahead and throwing away what was read.

## Main definitions

* `Parse.commands` — a line of commands.
* `Parse.statement`, `Parse.oStatement`, `Parse.block` — statements.
* `Parse.closesHere`, `Parse.closingHeader` — the end of a block.
* `Parse.program` — all statements.
-/

namespace Gcode

/-- Why a parse gives up. It happens only to one that is begun in the middle, with parts that no
parse makes. -/
inductive ParseError
  /-- A node is compared as a label and is none. -/
  | label (refusal : Node.NotALabel)
  /-- A block is opened by a keyword that opens none. -/
  | keyword (word : Text)

/-- The wording of the refusal. -/
def ParseError.message : ParseError → Text
  | .label refusal => refusal.message
  | .keyword word => Text.quoted word

namespace Parse

variable (s : Setting)

/-! ## Lines of commands -/

/-- A word and the value behind it, if one begins there. -/
def wordWithValue (depth : Nat) (ahead : List Token) : Parsed Node ahead :=
  let letter := advance s ahead
  let value :=
    if startsValue (current s letter.rest) then value s depth letter.rest
    else Parsed.pure none letter.rest
  (letter.behind value).map (.word letter.value.value)

/-- A command: a word, an expression in brackets, a function call, or the rest of the line as
text. -/
def command (depth : Nat) (ahead : List Token) : Parsed Node ahead :=
  match (current s ahead).kind with
  | .word => wordWithValue s depth ahead
  | .openBracket => bracketed s depth ahead
  | .function => functionCall s depth ahead
  | _ => unknown s ahead

/-- The token at hand as a comment. -/
def comment (ahead : List Token) : Parsed Node ahead :=
  (advance s ahead).map fun t => .comment t.value

/-- The token at hand as a line break. -/
def lineBreak (ahead : List Token) : Parsed Node ahead :=
  (advance s ahead).map fun t => .endOfLine t.value

/-- One turn of reading a line of commands. -/
def commandTurn (depth : Nat) (ahead : List Token) : Turn Node Unit ahead :=
  if endsCommands s ahead then .done (Parsed.pure () ahead)
  else if (current s ahead).kind = .comment then .item (comment s ahead)
  else .item (command s depth ahead)

/-- A line of commands, which may be empty. -/
def commands (depth : Nat) (ahead : List Token) : Parsed (List Node) ahead :=
  (steadyLoop s "command line" ahead (commandTurn s depth)).map Prod.fst

/-- A line of commands as a node. -/
def commandLine (depth : Nat) (ahead : List Token) : Parsed Node ahead :=
  (commands s depth ahead).map fun nodes => .commandLine (nodes.map some)

/-! ## Assignments and headers -/

/-- An assignment: the target, the equals sign and the value. -/
def assignment (depth : Nat) (ahead : List Token) : Parsed Node ahead :=
  let target := advance s ahead
  let sign := target.behind (expect s .assign target.rest)
  (sign.behind (value s depth sign.rest)).map (.assignment target.value.value)

/-- Whether a block with the given label and closing keyword is closed here. Nothing is read. -/
def closesHere (depth : Nat) (label : Option Node) (close : Text) (ahead : List Token) :
    Except Node.NotALabel Bool :=
  if isOWord (current s ahead) then
    let candidate := value s depth (advance s ahead).rest
    let keyword := current s candidate.rest
    if keyword.kind = .flow && Text.upper keyword.value = close then
      Node.labelsMatch label candidate.value
    else .ok false
  else .ok false

/-- The header of the line that closes a block. -/
def closingHeader (depth : Nat) (ahead : List Token) : Parsed Node ahead :=
  let oWord := advance s ahead
  let label := oWord.behind (value s depth oWord.rest)
  let keyword := label.behind (advance s label.rest)
  (keyword.behind (optionalBracket s depth keyword.rest)).map fun condition =>
    .header oWord.value.value label.value (Text.upper keyword.value.value) condition

/-- An o-word line that opens no block, from its header on. -/
def flatStatement (depth : Nat) (header : Node) (ahead : List Token) : Parsed Node ahead :=
  (commandLine s depth ahead).map fun line => .oStatement (some header) (some line)

/-! ## Statements -/

mutual

/-- A statement. -/
def statement (depth : Nat) (ahead : List Token) : Except (Halt ParseError) (Parsed Node ahead) :=
  let t := current s ahead
  if t.kind = .unknown || t.kind = .operator || t.kind = .comparison then .ok (unknown s ahead)
  else if t.kind = .endOfLine then .ok (lineBreak s ahead)
  else if t.kind = .comment then .ok (comment s ahead)
  else if startsAssignment s ahead then .ok (assignment s depth ahead)
  else if isOWord t then oStatement depth ahead
  else
    let line := commands s depth ahead
    if line.value.isEmpty then .ok (line.behind (unknown s line.rest))
    else .ok (line.map fun nodes => .commandLine (nodes.map some))
termination_by (ahead.length, 1)
decreasing_by exact Prod.Lex.right _ (by omega)

/-- An o-word line: a block if its keyword opens one, else the header and the commands behind it.
Of the other keywords, the one of a conditional branch may have a condition. -/
def oStatement (depth : Nat) (ahead : List Token) :
    Except (Halt ParseError) (Parsed Node ahead) :=
  let oWord := advance s ahead
  let label := oWord.behind (value s depth oWord.rest)
  let flow := advance s label.rest
  if _h : flow.value.kind = .flow then
    let keyword := Text.upper flow.value.value
    let behindFlow := label.behind flow
    if (Keyword.closing? keyword).isSome then
      behindFlow.tryBehind (block depth oWord.value label.value keyword behindFlow.rest)
    else
      let condition := behindFlow.behind
        (if keyword = "ELSEIF" then optionalBracket s depth behindFlow.rest
          else Parsed.pure none behindFlow.rest)
      .ok (condition.behind (flatStatement s depth
        (.header oWord.value.value label.value keyword condition.value) condition.rest))
  else
    .ok (label.behind
      (flatStatement s depth (.header oWord.value.value label.value [] none) label.rest))
termination_by (ahead.length, 0)
decreasing_by
  have notEnd : (current s label.rest).kind ≠ .endOfFile := fun h => by
    have isFlow : (current s label.rest).kind = .flow := _h
    rw [isFlow] at h
    contradiction
  exact Prod.Lex.left _ _ (Nat.lt_of_lt_of_le (length_advance_lt s notEnd) label.length_rest_le)

/-- A block from behind its keyword on, or its first line alone if it nests too deep. -/
def block (depth : Nat) (oWord : Token) (label : Option Node) (keyword : Text)
    (ahead : List Token) : Except (Halt ParseError) (Parsed Node ahead) :=
  let condition := optionalBracket s depth ahead
  let header := Node.header oWord.value label keyword condition.value
  if s.maxDepth ≤ depth then
    .ok (condition.behind ((flatStatement s depth header condition.rest).withReport
      ⟨.deepBlock s.maxDepth keyword, oWord.line⟩))
  else
    match Keyword.closing? keyword with
    | none => .error ⟨.keyword keyword, condition.rest, depth, condition.reports⟩
    | some close =>
      let body := loop s (keyword ++ " block") condition.rest fun ahead _ =>
        if (current s ahead).kind = .endOfFile then .ok (.done (Parsed.pure none ahead))
        else
          match closesHere s (depth + 1) label close ahead with
          | .error refusal => .error ⟨.label refusal, ahead, depth + 1, []⟩
          | .ok true => .ok (.done ((closingHeader s (depth + 1) ahead).map some))
          | .ok false => (statement (depth + 1) ahead).map .item
      condition.tryBehind (body.map fun parsed =>
        let closing := parsed.value.2.join
        let node := Node.block keyword (some header) (parsed.value.1.map some) closing
        if closing.isSome then parsed.map fun _ => node
        else
          let start := oWord.value ++ Node.describedLabel label
          parsed.behind (Parsed.reporting node
            ⟨.unclosedBlock start keyword close, oWord.line⟩ parsed.rest))
termination_by (ahead.length, 2)
decreasing_by
  exact Prod.Lex.right' _ (Nat.le_trans (List.IsSuffix.length_le ‹_›) condition.length_rest_le)
    (by omega)

end

/-! ## Programs -/

/-- The line breaks at hand. -/
def lineBreaks : (ahead : List Token) → Parsed (List Node) ahead
  | [] => Parsed.pure [] []
  | t :: rest =>
    if t.kind = .endOfLine then
      ((lineBreaks rest).map (.endOfLine t.value :: ·)).behindToken t
    else Parsed.pure [] (t :: rest)

/-- What a loop that was cut short left behind: line breaks as such, then all else as text. -/
def leftovers (ahead : List Token) : Parsed (List Node) ahead :=
  let breaks := lineBreaks ahead
  if (current s breaks.rest).kind = .endOfFile then breaks
  else (breaks.behind (remainder s breaks.rest)).map fun node => breaks.value ++ [node]

/-- All statements up to the end mark. -/
def program (depth : Nat) (ahead : List Token) :
    Except (Halt ParseError) (Parsed Program ahead) :=
  let statements := loop s "program" ahead fun ahead _ =>
    if (current s ahead).kind = .endOfFile then .ok (.done (Parsed.pure () ahead))
    else (statement s depth ahead).map .item
  statements.map fun parsed =>
    (parsed.behind (leftovers s parsed.rest)).map fun more =>
      ⟨(parsed.value.1 ++ more).map some⟩

end Parse

end Gcode
