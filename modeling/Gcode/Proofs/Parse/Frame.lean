import Gcode.Proofs.Parse.Block
import Gcode.Proofs.Parse.Executed

/-!
# What reading keeps of a session

Every parse function is run by steps that keep the frame, and the look ahead for the line that
closes a block changes nothing at all: the session behind it is the one in which it began. So the
header that is read behind it is the one that was seen.

## Main definitions

* `Production.parsed` — the parse function of a production.
* `Production.Callable` — with what a parse reads a block.

## Main statements

* `Session.looks_iff` — a look ahead finds what the parser does, and changes nothing.
* `Session.executes_tryRun` — every parse function returns, by steps.
* `Session.reading_framed` — looking ahead is pure, and reading keeps the frame.
-/

namespace Gcode

/-- The parse function of a production. -/
def Production.parsed (production : Production) (s : Setting) (depth : Nat) (ahead : List Token) :
    Except (Halt ParseError) (Parsed Answer ahead) :=
  match production with
  | .expression a => .ok ((a.parsed s depth ahead).map .expression)
  | .unknown => .ok ((Parse.unknown s ahead).map .node)
  | .remainder => .ok ((Parse.remainder s ahead).map .node)
  | .assignment => .ok ((Parse.assignment s depth ahead).map .node)
  | .wordWithValue => .ok ((Parse.wordWithValue s depth ahead).map .node)
  | .command => .ok ((Parse.command s depth ahead).map .node)
  | .commandLine => .ok ((Parse.commandLine s depth ahead).map .node)
  | .closingHeader => .ok ((Parse.closingHeader s depth ahead).map .node)
  | .statement => (Parse.statement s depth ahead).map (Parsed.map .node)
  | .oStatement => (Parse.oStatement s depth ahead).map (Parsed.map .node)
  | .block oWord label keyword =>
    (Parse.block s depth oWord label keyword ahead).map (Parsed.map .node)
  | .program => (Parse.program s depth ahead).map (Parsed.map .program)

/-- A block is read behind a label, and behind a keyword that opens one. -/
def Production.Callable : Production → Prop
  | .block _ label keyword =>
    (∃ text, Node.label label = .ok text) ∧ (Keyword.closing? keyword).isSome = true
  | _ => True

/-- A parse calls for a block behind a label that it read. -/
theorem Production.callable_block (s : Setting) (depth : Nat) (ahead : List Token) (oWord : Token)
    {keyword : Text} (h : (Keyword.closing? keyword).isSome = true) :
    (Production.block oWord (Parse.value s depth ahead).value keyword).Callable :=
  ⟨(@Parse.value_reads s True depth ahead fun _ => trivial).label_eq_ok, h⟩

/-- A line that closes a block takes a token. -/
theorem Parse.length_closingHeader_lt {s : Setting} {depth : Nat} {label : Option Node}
    {close : Text} {ahead : List Token} (h : closesHere s depth label close ahead = .ok true) :
    (closingHeader s depth ahead).rest.length < ahead.length := by
  obtain ⟨-, hk, -, -⟩ := closesHere_eq_true h
  exact Nat.lt_of_le_of_lt
    (optionalBracket s depth (keyworded s depth ahead).rest).length_rest_le (length_keyworded_lt hk)

namespace Session

variable {σ τ : Session}

/-- A parse begins in front of the first end mark, or at it. -/
theorem inBounds_ofTokens (tokens : List Token) (limits : Limits) :
    (Session.ofTokens tokens limits).InBounds :=
  Nat.zero_le _

/-! ## Looking ahead -/

/-- A look ahead finds one answer only. -/
theorem Looks.unique {label : Option Node} {close : Text}
    {answer answer' : Except Node.NotALabel Bool} {τ' : Session}
    (h : Looks label close σ answer τ) (k : Looks label close σ answer' τ')
    (hσ : σ.InBounds) : answer = answer' := by
  have hstep := (Framed.step hσ).inBounds
  cases h with
  | other hword =>
    cases k with
    | other => rfl
    | differs hword' | closing hword' => cases hword.symm.trans hword'
  | differs hword hvalue hk =>
    cases k with
    | other hword' => cases hword.symm.trans hword'
    | differs => rfl
    | closing _ hvalue' hflow hclose =>
      obtain ⟨rfl, rfl⟩ := hvalue.unique hvalue' hstep
      exact absurd ⟨hflow, hclose⟩ hk
  | closing hword hvalue hflow hclose =>
    cases k with
    | other hword' => cases hword.symm.trans hword'
    | differs _ hvalue' hk =>
      obtain ⟨rfl, rfl⟩ := hvalue.unique hvalue' hstep
      exact absurd ⟨hflow, hclose⟩ hk
    | closing _ hvalue' =>
      obtain ⟨rfl, rfl⟩ := hvalue.unique hvalue' hstep
      rfl

/-- A look ahead finds what the parser does, and changes nothing. -/
theorem looks_iff (hσ : σ.InBounds) {label : Option Node} {close : Text}
    {answer : Except Node.NotALabel Bool} :
    Looks label close σ answer τ ↔
      answer = Parse.closesHere σ.setting σ.depth label close σ.ahead ∧ τ = σ := by
  have hlooks := hσ.at.looks label close
  constructor
  · exact fun h => ⟨h.unique hlooks hσ, h.eq hσ⟩
  · rintro ⟨rfl, rfl⟩
    exact hlooks

/-! ## Reading -/

theorem tryRun_of_ok {α ε : Type}
    {p : Setting → (depth : Nat) → (ahead : List Token) → Except (Halt ε) (Parsed α ahead)}
    {parsed : Parsed α σ.ahead} (h : p σ.setting σ.depth σ.ahead = .ok parsed) :
    σ.tryRun p = (.ok parsed.value, σ.behind parsed) := by
  rw [tryRun, h]
  rfl

/-- Every parse function returns, and gets there by steps. -/
theorem executes_tryRun (hσ : σ.InBounds) {production : Production} (h : production.Callable) :
    ∃ answer τ, σ.tryRun production.parsed = (.ok answer, τ) ∧
      Executes (.read production) σ answer τ := by
  have hat := hσ.at
  cases production with
  | expression a => exact ⟨_, _, rfl, .expression (hat.evaluates a)⟩
  | unknown => exact ⟨_, _, rfl, hat.executes_unknown⟩
  | remainder => exact ⟨_, _, rfl, hat.executes_remainder⟩
  | assignment => exact ⟨_, _, rfl, hat.executes_assignment⟩
  | wordWithValue => exact ⟨_, _, rfl, hat.executes_wordWithValue⟩
  | command => exact ⟨_, _, rfl, hat.executes_command⟩
  | commandLine => exact ⟨_, _, rfl, hat.executes_commandLine⟩
  | closingHeader => exact ⟨_, _, rfl, hat.executes_closingHeader⟩
  | statement =>
    obtain ⟨p, hp, hstatement⟩ := hat.executes_statement
    exact ⟨_, _, tryRun_of_ok (by rw [Production.parsed, hp]; rfl), hstatement⟩
  | oStatement =>
    obtain ⟨p, hp, hline⟩ := hat.executes_oStatement
    exact ⟨_, _, tryRun_of_ok (by rw [Production.parsed, hp]; rfl), hline⟩
  | block oWord label keyword =>
    obtain ⟨p, hp, hblock⟩ := hat.executes_block oWord h.1 h.2
    exact ⟨_, _, tryRun_of_ok (by rw [Production.parsed, hp]; rfl), hblock⟩
  | program =>
    obtain ⟨p, hp, hprogram⟩ := hat.executes_program
    exact ⟨_, _, tryRun_of_ok (by rw [Production.parsed, hp]; rfl), hprogram⟩

/-- The header of a line that was seen to close a block is read as it was seen, and takes a
token. -/
theorem exists_header_of_looks (hσ : σ.InBounds) {label : Option Node} {close : Text}
    (h : Looks label close σ (.ok true) τ) :
    ∃ word label' condition υ,
      τ.tryRun (Production.parsed .closingHeader) =
        (.ok (.node (.header word label' close condition)), υ) ∧
      Node.labelsMatch label label' = .ok true ∧ τ.position < υ.position := by
  obtain ⟨hcloses, rfl⟩ := (looks_iff hσ).mp h
  obtain ⟨word, label', condition, hvalue, hmatch⟩ := Parse.closingHeader_closes hcloses.symm
  have hat := hσ.at
  have hlt := Parse.length_closingHeader_lt hcloses.symm
  have hle := hat.length_le
  refine ⟨word, label', condition, _, (by rw [← hvalue]; rfl), hmatch, ?_⟩
  rw [← hat.position_eq]
  exact Nat.sub_lt_sub_left (Nat.lt_of_lt_of_le hlt hle) hlt

/-- In every session whose place is not behind the first end mark, whatever its tokens, its limits,
its depth and its reports: looking ahead for the line that closes a block finds what the parser does
and leads back to the session as it was; where it finds that line, the header that is read there has
the keyword and a label that matches, and takes a token. Every parse function that a parse calls
returns, and gets there by steps; and whatever steps are made, and on whatever way, they keep the
frame. -/
theorem reading_framed (hσ : σ.InBounds) :
    (∀ label close answer τ, Looks label close σ answer τ ↔
      answer = Parse.closesHere σ.setting σ.depth label close σ.ahead ∧ τ = σ) ∧
    (∀ label close τ, Looks label close σ (.ok true) τ →
      ∃ word label' condition υ,
        τ.tryRun (Production.parsed .closingHeader) =
          (.ok (.node (.header word label' close condition)), υ) ∧
        Node.labelsMatch label label' = .ok true ∧ τ.position < υ.position) ∧
    (∀ (s : Setting) depth ahead oWord keyword, (Keyword.closing? keyword).isSome = true →
      (Production.block oWord (Parse.value s depth ahead).value keyword).Callable) ∧
    (∀ production : Production, production.Callable → ∃ answer τ,
      σ.tryRun production.parsed = (.ok answer, τ) ∧ Executes (.read production) σ answer τ) ∧
    ∀ task answer τ, Executes task σ answer τ → σ.Framed τ :=
  ⟨fun _ _ _ _ => looks_iff hσ, fun _ _ _ => exists_header_of_looks hσ,
    fun s depth ahead oWord _ => Production.callable_block s depth ahead oWord,
    fun _ h => executes_tryRun hσ h, fun _ _ _ h => h.framed hσ⟩

/-- A line that closes a block, seen and then read. -/
theorem reading_framed_endsub :
    ∃ σ : Session, σ.InBounds ∧ Looks (some (.number "1")) "ENDSUB" σ (.ok true) σ ∧
      ∃ word label condition υ,
        σ.tryRun (Production.parsed .closingHeader) =
          (.ok (.node (.header word label "ENDSUB" condition)), υ) ∧
        Node.labelsMatch (some (.number "1")) label = .ok true ∧ σ.position < υ.position := by
  let o : Token := ⟨.word, "o", 1⟩
  let label : Token := ⟨.number, "1", 1⟩
  let keyword : Token := ⟨.flow, "endsub", 1⟩
  let σ := Session.ofTokens [o, label, keyword, ⟨.endOfFile, "", 1⟩] {}
  have hσ : σ.InBounds := inBounds_ofTokens _ _
  obtain ⟨hlooks, hheader, -⟩ := reading_framed hσ
  have hlabel := Parse.value_yields
    (@Parse.operand_number σ.setting σ.depth label rfl [keyword])
    (Parse.chain_done (by decide) _)
  have hmatch : Node.labelsMatch (some (.number "1")) (some (.number label.value)) = .ok true := by
    simp [Node.labelsMatch, Node.label, Style.text, Node.labelStyle, label, Except.bind, Except.map]
  have hcloses : Parse.closesHere σ.setting σ.depth (some (.number "1")) "ENDSUB" σ.ahead =
      .ok true :=
    (Parse.closesHere_cons (show Parse.isOWord o = true by decide) hlabel rfl).trans hmatch
  have hseen := (hlooks _ _ _ _).mpr ⟨hcloses.symm, rfl⟩
  exact ⟨σ, hσ, hseen, hheader _ _ _ hseen⟩

end Session

end Gcode
