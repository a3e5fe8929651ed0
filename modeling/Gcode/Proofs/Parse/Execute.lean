import Gcode.Proofs.Parse.Evaluated

/-!
# Statements read step by step in a session

The rules say in which order the steps are made that read a statement, a line of commands, a block
or a program from a session on. A loop takes turns, and a turn of a block begins with a look ahead:
the label and the keyword are read as they would be anywhere else, and what was read is thrown away
by going back to the place and to the reports of before. The depth is not put back; the look ahead
leaves it alone because it keeps the frame.

## Main definitions

* `Session.Looks` — the look ahead for the line that closes a block.
* `Executes` — the steps by which something is read that is no expression.

## Main statements

* `Session.Looks.eq` — a look ahead leads back to the session where it began.
* `Executes.framed` — reading keeps the frame, whatever is read.
-/

namespace Gcode

open Parse (isOWord startsAssignment startsValue endsCommands)
open Token (texts)

namespace Session

/-! ## Looking ahead -/

/-- Back at the place of `σ`, and with as many reports as there were. -/
def restored (τ σ : Session) : Session :=
  { τ with position := σ.position, reports := τ.reports.take σ.reports.length }

/-- Whether a block with the label is closed by the keyword `close` on the line at hand. -/
inductive Looks (label : Option Node) (close : Text) :
    Session → Except Node.NotALabel Bool → Session → Prop
  | other {σ : Session} : isOWord σ.current = false →
    Looks label close σ (.ok false) (σ.restored σ)
  | differs {σ τ : Session} {candidate : Option Node} : isOWord σ.current = true →
    Evaluates .value σ.step candidate τ →
    ¬(τ.current.kind = .flow ∧ Text.upper τ.current.value = close) →
    Looks label close σ (.ok false) (τ.restored σ)
  | closing {σ τ : Session} {candidate : Option Node} : isOWord σ.current = true →
    Evaluates .value σ.step candidate τ → τ.current.kind = .flow →
    Text.upper τ.current.value = close →
    Looks label close σ (Node.labelsMatch label candidate) (τ.restored σ)

theorem Framed.restored {σ τ : Session} (h : σ.Framed τ) : τ.restored σ = σ := by
  obtain ⟨reports, hreports⟩ := h.reports
  obtain ⟨tokens, limits, position, depth, before⟩ := σ
  obtain ⟨rfl, rfl, rfl⟩ := And.intro h.tokens_eq (And.intro h.limits_eq h.depth_eq)
  simp only [Session.restored, ← hreports, List.take_left']

/-- A look ahead leads back to where it began, whatever it finds. -/
theorem Looks.eq {label : Option Node} {close : Text} {σ τ : Session}
    {answer : Except Node.NotALabel Bool} (h : Looks label close σ answer τ) (hσ : σ.InBounds) :
    τ = σ := by
  have hstep := Framed.step hσ
  cases h with
  | other => exact (Framed.refl hσ).restored
  | differs _ hvalue | closing _ hvalue =>
    exact (hstep.trans (hvalue.framed hstep.inBounds)).restored

end Session

/-! ## Statements -/

/-- What a loop takes turns at. -/
inductive Round
  | commands
  /-- The statements of a block with the label, up to the line that the keyword closes. -/
  | block (label : Option Node) (close : Text)
  | program

/-- What is read of a program. -/
inductive Production
  | expression (a : Asked)
  | unknown
  | remainder
  | assignment
  | wordWithValue
  | command
  | commandLine
  | closingHeader
  | statement
  | oStatement
  /-- A block behind its keyword. -/
  | block (oWord : Token) (label : Option Node) (keyword : Text)
  | program

/-- What is to be done. -/
inductive Task
  | read (production : Production)
  | turn (round : Round)
  /-- At most `n` turns of a loop, which reports name by its place. -/
  | turns (round : Round) (place : Text) (n : Nat)

/-- What was read. -/
inductive Answer
  | expression (n : Option Node)
  | node (n : Node)
  /-- A turn ended the loop, with the header that closes a block if there is one. -/
  | ended (closing : Option Node)
  /-- The items of a loop, and how a turn ended it, unless a guard did. -/
  | items (nodes : List Node) (ending : Option (Option Node))
  | program (p : Program)

/-- The most turns that a loop may take. -/
def Session.maxRounds (σ : Session) : Int := σ.limits.maxRounds.getD (σ.tokens.length + 1)

/-- The node for a line of commands. -/
def Node.line (nodes : List Node) : Node := .commandLine (nodes.map some)

open Session (Looks)

/-- Something is read from a session on and leads to another one. -/
inductive Executes : Task → Session → Answer → Session → Prop
  | expression {a : Asked} {σ τ : Session} {n : Option Node} : Evaluates a σ n τ →
    Executes (.read (.expression a)) σ (.expression n) τ
  -- Runs of tokens that are kept as text.
  | blank {σ τ : Session} {ts : List Token} : Gathers .line () σ.step ts τ →
    Text.isBlankOnly (σ.current.value ++ texts ts) = true →
    Executes (.read .unknown) σ
      (.node (.unknown (σ.current.value ++ texts ts) σ.current.line)) τ
  | stray {σ τ : Session} {ts : List Token} : Gathers .line () σ.step ts τ →
    Text.isBlankOnly (σ.current.value ++ texts ts) = false →
    Executes (.read .unknown) σ
      (.node (.unknown (σ.current.value ++ texts ts) σ.current.line))
      (τ.report ⟨.strayText (σ.current.value ++ texts ts), σ.current.line⟩)
  | remainder {σ τ : Session} {ts : List Token} : Gathers .program () σ ts τ →
    Executes (.read .remainder) σ (.node (.unknown (texts ts) σ.current.line)) τ
  -- Assignments and commands.
  | assignment {σ τ : Session} {n : Option Node} :
    Evaluates .value (σ.step.expect .assign).2 n τ →
    Executes (.read .assignment) σ (.node (.assignment σ.current.value n)) τ
  | wordWithValue {σ τ : Session} {n : Option Node} : startsValue σ.step.current = true →
    Evaluates .value σ.step n τ →
    Executes (.read .wordWithValue) σ (.node (.word σ.current.value n)) τ
  | wordAlone {σ : Session} : startsValue σ.step.current = false →
    Executes (.read .wordWithValue) σ (.node (.word σ.current.value none)) σ.step
  | wordCommand {σ τ : Session} {answer : Answer} : σ.current.kind = .word →
    Executes (.read .wordWithValue) σ answer τ → Executes (.read .command) σ answer τ
  | bracketCommand {σ τ : Session} {n : Node} : σ.current.kind = .openBracket →
    Evaluates .bracketed σ (some n) τ → Executes (.read .command) σ (.node n) τ
  | callCommand {σ τ : Session} {n : Node} : σ.current.kind = .function →
    Evaluates .functionCall σ (some n) τ → Executes (.read .command) σ (.node n) τ
  | unknownCommand {σ τ : Session} {answer : Answer} :
    σ.current.kind ∉ ([.word, .openBracket, .function] : List TokenKind) →
    Executes (.read .unknown) σ answer τ → Executes (.read .command) σ answer τ
  | commandLine {σ τ : Session} {nodes : List Node} {ending : Option (Option Node)} :
    Executes (.turns .commands "command line" σ.maxRounds.toNat) σ (.items nodes ending) τ →
    Executes (.read .commandLine) σ (.node (Node.line nodes)) τ
  -- Statements.
  | unknownStatement {σ τ : Session} {answer : Answer} :
    σ.current.kind ∈ ([.unknown, .operator, .comparison] : List TokenKind) →
    Executes (.read .unknown) σ answer τ → Executes (.read .statement) σ answer τ
  | lineBreak {σ : Session} : σ.current.kind = .endOfLine →
    Executes (.read .statement) σ (.node (.endOfLine σ.current.value)) σ.step
  | comment {σ : Session} : σ.current.kind = .comment →
    Executes (.read .statement) σ (.node (.comment σ.current.value)) σ.step
  | assigned {σ τ : Session} {answer : Answer} : startsAssignment σ.setting σ.ahead = true →
    Executes (.read .assignment) σ answer τ → Executes (.read .statement) σ answer τ
  | oWord {σ τ : Session} {answer : Answer} : isOWord σ.current = true →
    Executes (.read .oStatement) σ answer τ → Executes (.read .statement) σ answer τ
  | line {σ τ : Session} {nodes : List Node} :
    σ.current.kind ∉
      ([.unknown, .operator, .comparison, .endOfLine, .comment] : List TokenKind) →
    startsAssignment σ.setting σ.ahead = false → isOWord σ.current = false → nodes ≠ [] →
    Executes (.read .commandLine) σ (.node (Node.line nodes)) τ →
    Executes (.read .statement) σ (.node (Node.line nodes)) τ
  | emptyLine {σ τ υ : Session} {answer : Answer} :
    σ.current.kind ∉
      ([.unknown, .operator, .comparison, .endOfLine, .comment] : List TokenKind) →
    startsAssignment σ.setting σ.ahead = false → isOWord σ.current = false →
    Executes (.read .commandLine) σ (.node (Node.line [])) τ →
    Executes (.read .unknown) τ answer υ → Executes (.read .statement) σ answer υ
  -- O-word lines.
  | bare {σ τ υ : Session} {label : Option Node} {line : Node} :
    Evaluates .value σ.step label τ → τ.current.kind ≠ .flow →
    Executes (.read .commandLine) τ (.node line) υ →
    Executes (.read .oStatement) σ
      (.node (.oStatement (some (.header σ.current.value label [] none)) (some line))) υ
  | opens {σ τ υ : Session} {label : Option Node} {answer : Answer} :
    Evaluates .value σ.step label τ → τ.current.kind = .flow →
    (Keyword.closing? (Text.upper τ.current.value)).isSome = true →
    Executes (.read (.block σ.current label (Text.upper τ.current.value))) τ.step answer υ →
    Executes (.read .oStatement) σ answer υ
  | branch {σ τ υ φ : Session} {label condition : Option Node} {line : Node} :
    Evaluates .value σ.step label τ → τ.current.kind = .flow →
    Text.upper τ.current.value = "ELSEIF" →
    Evaluates .optionalBracket τ.step condition υ →
    Executes (.read .commandLine) υ (.node line) φ →
    Executes (.read .oStatement) σ
      (.node (.oStatement (some (.header σ.current.value label "ELSEIF" condition))
        (some line))) φ
  | marker {σ τ υ : Session} {label : Option Node} {line : Node} :
    Evaluates .value σ.step label τ → τ.current.kind = .flow →
    Keyword.closing? (Text.upper τ.current.value) = none →
    Text.upper τ.current.value ≠ "ELSEIF" →
    Executes (.read .commandLine) τ.step (.node line) υ →
    Executes (.read .oStatement) σ
      (.node (.oStatement
        (some (.header σ.current.value label (Text.upper τ.current.value) none)) (some line))) υ
  | closingHeader {σ τ υ : Session} {label condition : Option Node} :
    Evaluates .value σ.step label τ → Evaluates .optionalBracket τ.step condition υ →
    Executes (.read .closingHeader) σ
      (.node (.header σ.current.value label (Text.upper τ.current.value) condition)) υ
  -- Blocks.
  | deepBlock {oWord : Token} {label condition : Option Node} {keyword : Text}
    {σ τ υ : Session} {line : Node} :
    Evaluates .optionalBracket σ condition τ → τ.limits.maxDepth ≤ τ.depth →
    Executes (.read .commandLine)
      (τ.report ⟨.deepBlock τ.limits.maxDepth keyword, oWord.line⟩) (.node line) υ →
    Executes (.read (.block oWord label keyword)) σ
      (.node (.oStatement (some (.header oWord.value label keyword condition)) (some line))) υ
  | closedBlock {oWord : Token} {label condition : Option Node} {keyword close : Text}
    {σ τ υ : Session} {nodes : List Node} {header : Node} :
    Evaluates .optionalBracket σ condition τ → ¬τ.limits.maxDepth ≤ τ.depth →
    Keyword.closing? keyword = some close →
    Executes (.turns (.block label close) (keyword ++ " block") τ.maxRounds.toNat) (τ.deeper 1)
      (.items nodes (some (some header))) υ →
    Executes (.read (.block oWord label keyword)) σ
      (.node (.block keyword (some (.header oWord.value label keyword condition))
        (nodes.map some) (some header))) (υ.shallower 1)
  | unclosedBlock {oWord : Token} {label condition : Option Node} {keyword close : Text}
    {σ τ υ : Session} {nodes : List Node} {ending : Option (Option Node)} :
    Evaluates .optionalBracket σ condition τ → ¬τ.limits.maxDepth ≤ τ.depth →
    Keyword.closing? keyword = some close →
    Executes (.turns (.block label close) (keyword ++ " block") τ.maxRounds.toNat) (τ.deeper 1)
      (.items nodes ending) υ → ending.join = none →
    Executes (.read (.block oWord label keyword)) σ
      (.node (.block keyword (some (.header oWord.value label keyword condition))
        (nodes.map some) none))
      ((υ.shallower 1).report
        ⟨.unclosedBlock (oWord.value ++ Node.describedLabel label) keyword close, oWord.line⟩)
  -- The turns of loops.
  | commandsEnd {σ : Session} : endsCommands σ.setting σ.ahead = true →
    Executes (.turn .commands) σ (.ended none) σ
  | commentTurn {σ : Session} : endsCommands σ.setting σ.ahead = false →
    σ.current.kind = .comment →
    Executes (.turn .commands) σ (.node (.comment σ.current.value)) σ.step
  | commandTurn {σ τ : Session} {answer : Answer} : endsCommands σ.setting σ.ahead = false →
    σ.current.kind ≠ .comment → Executes (.read .command) σ answer τ →
    Executes (.turn .commands) σ answer τ
  | blockEnd {label : Option Node} {close : Text} {σ : Session} :
    σ.current.kind = .endOfFile → Executes (.turn (.block label close)) σ (.ended none) σ
  | blockClosed {label : Option Node} {close : Text} {σ τ υ : Session} {header : Node} :
    σ.current.kind ≠ .endOfFile → Looks label close σ (.ok true) τ →
    Executes (.read .closingHeader) τ (.node header) υ →
    Executes (.turn (.block label close)) σ (.ended (some header)) υ
  | blockTurn {label : Option Node} {close : Text} {σ τ υ : Session} {answer : Answer} :
    σ.current.kind ≠ .endOfFile → Looks label close σ (.ok false) τ →
    Executes (.read .statement) τ answer υ → Executes (.turn (.block label close)) σ answer υ
  | programEnd {σ : Session} : σ.current.kind = .endOfFile →
    Executes (.turn .program) σ (.ended none) σ
  | programTurn {σ τ : Session} {answer : Answer} : σ.current.kind ≠ .endOfFile →
    Executes (.read .statement) σ answer τ → Executes (.turn .program) σ answer τ
  -- Loops.
  | overrun {round : Round} {place : Text} {σ : Session} :
    Executes (.turns round place 0) σ (.items [] none)
      (σ.report ⟨.overrun place σ.maxRounds, σ.current.line⟩)
  | ended {round : Round} {place : Text} {n : Nat} {σ τ : Session} {closing : Option Node} :
    Executes (.turn round) σ (.ended closing) τ →
    Executes (.turns round place (n + 1)) σ (.items [] (some closing)) τ
  | stalled {round : Round} {place : Text} {n : Nat} {σ τ : Session} {item : Node} :
    Executes (.turn round) σ (.node item) τ → τ.position = σ.position →
    Executes (.turns round place (n + 1)) σ (.items [item] none)
      (τ.report ⟨.stalled place σ.position, τ.current.line⟩)
  | again {round : Round} {place : Text} {n : Nat} {σ τ υ : Session} {item : Node}
    {items : List Node} {ending : Option (Option Node)} :
    Executes (.turn round) σ (.node item) τ → τ.position ≠ σ.position →
    Executes (.turns round place n) τ (.items items ending) υ →
    Executes (.turns round place (n + 1)) σ (.items (item :: items) ending) υ
  -- Programs.
  | wholeProgram {σ τ υ : Session} {nodes : List Node} {ending : Option (Option Node)}
    {breaks : List Token} :
    Executes (.turns .program "program" σ.maxRounds.toNat) σ (.items nodes ending) τ →
    Gathers .breaks () τ breaks υ → υ.current.kind = .endOfFile →
    Executes (.read .program) σ
      (.program ⟨(nodes ++ breaks.map fun t => Node.endOfLine t.value).map some⟩) υ
  | cutProgram {σ τ υ φ : Session} {nodes : List Node} {ending : Option (Option Node)}
    {breaks : List Token} {rest : Node} :
    Executes (.turns .program "program" σ.maxRounds.toNat) σ (.items nodes ending) τ →
    Gathers .breaks () τ breaks υ → υ.current.kind ≠ .endOfFile →
    Executes (.read .remainder) υ (.node rest) φ →
    Executes (.read .program) σ
      (.program ⟨(nodes ++ (breaks.map (fun t => Node.endOfLine t.value) ++ [rest])).map some⟩) φ

open Session (Framed)

/-- Reading keeps the frame, whatever is read and whatever way it takes. -/
theorem Executes.framed {task : Task} {σ τ : Session} {answer : Answer}
    (h : Executes task σ answer τ) (hσ : σ.InBounds) : σ.Framed τ := by
  induction h with
  | expression hvalue | bracketCommand _ hvalue | callCommand _ hvalue => exact hvalue.framed hσ
  | blank hline =>
    have hfirst := Framed.step hσ
    exact hfirst.trans (hline.framed hfirst.inBounds)
  | stray hline =>
    have hfirst := Framed.step hσ
    have htext := hline.framed hfirst.inBounds
    exact hfirst.trans (htext.trans (.report htext.inBounds _))
  | remainder hrest => exact hrest.framed hσ
  | assignment hvalue =>
    have htarget := Framed.step hσ
    have hsign := htarget.trans (.expect htarget.inBounds .assign)
    exact hsign.trans (hvalue.framed hsign.inBounds)
  | wordWithValue _ hvalue =>
    have hletter := Framed.step hσ
    exact hletter.trans (hvalue.framed hletter.inBounds)
  | wordAlone | lineBreak | comment | commentTurn => exact .step hσ
  | commandsEnd | blockEnd | programEnd => exact .refl hσ
  | wordCommand _ _ ih | unknownCommand _ _ ih | commandLine _ ih | unknownStatement _ _ ih
  | assigned _ _ ih | oWord _ _ ih | line _ _ _ _ _ ih | commandTurn _ _ _ ih
  | programTurn _ _ ih | ended _ ih => exact ih hσ
  | emptyLine _ _ _ _ _ ihline ihunknown =>
    have hline := ihline hσ
    exact hline.trans (ihunknown hline.inBounds)
  | bare hlabel _ _ ih =>
    have hword := Framed.step hσ
    have hlabelled := hword.trans (hlabel.framed hword.inBounds)
    exact hlabelled.trans (ih hlabelled.inBounds)
  | opens hlabel _ _ _ ih | marker hlabel _ _ _ _ ih =>
    have hword := Framed.step hσ
    have hlabelled := hword.trans (hlabel.framed hword.inBounds)
    have hkeyword := hlabelled.trans (.step hlabelled.inBounds)
    exact hkeyword.trans (ih hkeyword.inBounds)
  | branch hlabel _ _ hcondition _ ih =>
    have hword := Framed.step hσ
    have hlabelled := hword.trans (hlabel.framed hword.inBounds)
    have hkeyword := hlabelled.trans (.step hlabelled.inBounds)
    have hbehind := hkeyword.trans (hcondition.framed hkeyword.inBounds)
    exact hbehind.trans (ih hbehind.inBounds)
  | closingHeader hlabel hcondition =>
    have hword := Framed.step hσ
    have hlabelled := hword.trans (hlabel.framed hword.inBounds)
    have hkeyword := hlabelled.trans (.step hlabelled.inBounds)
    exact hkeyword.trans (hcondition.framed hkeyword.inBounds)
  | deepBlock hcondition _ _ ih =>
    have hheader := hcondition.framed hσ
    exact hheader.trans ((Framed.report hheader.inBounds _).trans (ih hheader.inBounds))
  | closedBlock hcondition _ _ _ ih =>
    have hheader := hcondition.framed hσ
    exact hheader.trans (ih hheader.inBounds).shallower
  | unclosedBlock hcondition _ _ _ _ ih =>
    have hheader := hcondition.framed hσ
    have hbody := hheader.trans (ih hheader.inBounds).shallower
    exact hbody.trans (.report hbody.inBounds _)
  | blockClosed _ hlooks _ ih | blockTurn _ hlooks _ ih =>
    -- The turn goes on in the very session where it looked ahead.
    obtain rfl := hlooks.eq hσ
    exact ih hσ
  | overrun => exact .report hσ _
  | stalled _ _ ih =>
    have hturn := ih hσ
    exact hturn.trans (.report hturn.inBounds _)
  | again _ _ _ ihturn ihmore =>
    have hturn := ihturn hσ
    exact hturn.trans (ihmore hturn.inBounds)
  | wholeProgram _ hbreaks _ ih =>
    have hloop := ih hσ
    exact hloop.trans (hbreaks.framed hloop.inBounds)
  | cutProgram _ hbreaks _ _ ihloop ihrest =>
    have hloop := ihloop hσ
    have hbehind := hloop.trans (hbreaks.framed hloop.inBounds)
    exact hbehind.trans (ihrest hbehind.inBounds)

end Gcode
