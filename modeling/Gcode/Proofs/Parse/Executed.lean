import Gcode.Proofs.Parse.Execute
import Gcode.Proofs.Parse.OWord

/-!
# The steps of the parse functions

Every parse function reads by steps: in a session where it is given what is ahead, the steps lead to
its value, and to the session behind what it read. For statements, blocks and programs this says at
once that the parse function returns.

## Main definitions

* `Turn.Executed` — a turn of a loop is made by steps.

## Main statements

* `Session.At.executes_turns` — a loop whose turns are made by steps is run by steps.
* `Session.At.looks` — the look ahead for the end of a block.
* `Session.At.executes_statement`, `Session.At.executes_program` — statements and programs.
-/

namespace Gcode

open Parse (advance)
open Token (texts)

/-- No report is made of the rest of a line. -/
theorem Parse.restOfLine_reports (ahead : List Token) : (restOfLine ahead).reports = [] := by
  induction ahead with
  | nil => rfl
  | cons t rest ih =>
    rw [restOfLine]
    split
    case isTrue => rfl
    case isFalse => exact ih

namespace Session

variable {s : Setting} {depth : Nat} {σ τ : Session} {ahead : List Token}

/-! ## Runs of tokens -/

theorem At.gathers_line (h : σ.At s depth ahead) : ∃ ts : List Token,
    (Parse.restOfLine ahead).value = texts ts ∧
      Gathers .line () σ ts (σ.behind (Parse.restOfLine ahead)) := by
  induction ahead generalizing σ with
  | nil =>
    refine ⟨[], rfl, h.gathers_stop ?_ _⟩
    simp [Gathering.line, h.current_eq, Setting.stop]
  | cons t rest ih =>
    have hne := h.kind_ne t List.mem_cons_self
    rw [Parse.restOfLine]
    split
    case isTrue ht =>
      refine ⟨[], rfl, h.gathers_stop ?_ _⟩
      simp [Gathering.line, h.current_eq, ht]
    case isFalse ht =>
      obtain ⟨ts, hvalue, hts⟩ := ih h.step_cons
      refine ⟨t :: ts, congrArg (t.value ++ ·) hvalue, h.gathers_more ?_ hts⟩
      simp [Gathering.line, h.current_eq, ht, hne]

theorem At.gathers_program (h : σ.At s depth ahead) : ∃ ts : List Token,
    (Parse.restOfProgram ahead).value = texts ts ∧
      Gathers .program () σ ts (σ.behind (Parse.restOfProgram ahead)) := by
  induction ahead generalizing σ with
  | nil =>
    refine ⟨[], rfl, h.gathers_stop ?_ _⟩
    simp [Gathering.program, h.current_eq, Setting.stop]
  | cons t rest ih =>
    have hne := h.kind_ne t List.mem_cons_self
    rw [Parse.restOfProgram]
    obtain ⟨ts, hvalue, hts⟩ := ih h.step_cons
    refine ⟨t :: ts, congrArg (t.value ++ ·) hvalue, h.gathers_more ?_ hts⟩
    simp [Gathering.program, h.current_eq, hne]

theorem At.gathers_breaks (h : σ.At s depth ahead) : ∃ ts : List Token,
    (Parse.lineBreaks ahead).value = ts.map (fun t => Node.endOfLine t.value) ∧
      Gathers .breaks () σ ts (σ.behind (Parse.lineBreaks ahead)) := by
  induction ahead generalizing σ with
  | nil =>
    refine ⟨[], rfl, h.gathers_stop ?_ _⟩
    simp [Gathering.breaks, h.current_eq, Setting.stop]
  | cons t rest ih =>
    rw [Parse.lineBreaks]
    split
    case isTrue ht =>
      obtain ⟨ts, hvalue, hts⟩ := ih h.step_cons
      refine ⟨t :: ts, congrArg (Node.endOfLine t.value :: ·) hvalue, h.gathers_more ?_ hts⟩
      simp [Gathering.breaks, h.current_eq, ht]
    case isFalse ht =>
      refine ⟨[], rfl, h.gathers_stop ?_ _⟩
      simp [Gathering.breaks, h.current_eq, ht]

/-! ## Parts without statements -/

theorem At.evaluates (h : σ.At s depth ahead) (a : Asked) :
    Evaluates a σ (a.parsed s depth ahead).value (σ.behind (a.parsed s depth ahead)) := by
  have hsteps := h.inBounds.evaluates a
  rw [h.answer_eq] at hsteps
  exact hsteps

theorem At.evaluates_value (h : σ.At s depth ahead) :
    Evaluates .value σ (Parse.value s depth ahead).value (σ.behind (Parse.value s depth ahead)) :=
  h.evaluates .value

theorem At.evaluates_optionalBracket (h : σ.At s depth ahead) :
    Evaluates .optionalBracket σ (Parse.optionalBracket s depth ahead).value
      (σ.behind (Parse.optionalBracket s depth ahead)) :=
  h.evaluates .optionalBracket

theorem At.maxRounds_eq (h : σ.At s depth ahead) : σ.maxRounds = s.maxRounds := by
  rw [← h.setting_eq]
  rfl

/-- What is read behind the token at hand is read behind the step. -/
theorem At.step_behind_advance {α : Type} (h : σ.At s depth ahead) (p : Parsed α ahead.tail) :
    σ.step.behind p = σ.behind ((advance s ahead).behind p) := by
  rw [h.step_eq]
  exact behind_behind σ (advance s ahead) p

theorem At.executes_unknown (h : σ.At s depth ahead) :
    Executes (.read .unknown) σ (.node (Parse.unknown s ahead).value)
      (σ.behind (Parse.unknown s ahead)) := by
  obtain ⟨ts, hvalue, hts⟩ := h.step.gathers_line
  have hreports := Parse.restOfLine_reports ahead.tail
  rw [h.step_behind_advance] at hts
  have hblank := Executes.blank hts
  have hstray := Executes.stray hts
  rw [← hvalue, h.current_eq] at hblank hstray
  cases hb : Text.isBlankOnly ((Parse.current s ahead).value ++ (Parse.restOfLine ahead.tail).value)
  case true =>
    have hend : σ.behind ((advance s ahead).behind (Parse.restOfLine ahead.tail)) =
        σ.behind (Parse.unknown s ahead) :=
      behind_congr σ rfl (by simp [Parsed.behind, advance, Parse.unknown, hb, hreports])
    rw [← hend]
    exact hblank hb
  case false =>
    have hend : (σ.behind ((advance s ahead).behind (Parse.restOfLine ahead.tail))).report
        ⟨.strayText ((Parse.current s ahead).value ++ (Parse.restOfLine ahead.tail).value),
          (Parse.current s ahead).line⟩ = σ.behind (Parse.unknown s ahead) := by
      simp [Session.behind, Session.report, Parsed.behind, advance, Parse.unknown, hb, hreports]
    rw [← hend]
    exact hstray hb

theorem At.executes_remainder (h : σ.At s depth ahead) :
    Executes (.read .remainder) σ (.node (Parse.remainder s ahead).value)
      (σ.behind (Parse.remainder s ahead)) := by
  obtain ⟨ts, hvalue, hts⟩ := h.gathers_program
  have hrest := Executes.remainder hts
  rw [← hvalue, h.current_eq] at hrest
  exact hrest

theorem At.executes_assignment (h : σ.At s depth ahead) :
    Executes (.read .assignment) σ (.node (Parse.assignment s depth ahead).value)
      (σ.behind (Parse.assignment s depth ahead)) := by
  have hvalue := (h.step.behind (Parse.expect s .assign ahead.tail)).evaluates_value
  have hassignment := @Executes.assignment σ
  have hend : (σ.step.behind (Parse.expect s .assign ahead.tail)).behind
      (Parse.value s depth (Parse.expect s .assign ahead.tail).rest) =
        σ.behind (Parse.assignment s depth ahead) := by
    rw [behind_behind, h.step_behind_advance]
    exact behind_congr σ rfl (List.append_assoc _ _ _).symm
  rw [h.step.expect_eq, h.current_eq] at hassignment
  rw [← hend]
  exact hassignment hvalue

theorem At.executes_wordWithValue (h : σ.At s depth ahead) :
    Executes (.read .wordWithValue) σ (.node (Parse.wordWithValue s depth ahead).value)
      (σ.behind (Parse.wordWithValue s depth ahead)) := by
  have hvalue := h.step.evaluates_value
  have hword := @Executes.wordWithValue σ
  have halone := @Executes.wordAlone σ
  rw [h.step.current_eq, h.current_eq] at hword halone
  unfold Parse.wordWithValue
  cases hstarts : Parse.startsValue (Parse.current s ahead.tail)
  case true =>
    simp only [advance, hstarts, if_true]
    rw [h.step_behind_advance] at hvalue
    exact hword hstarts hvalue
  case false =>
    simp only [advance, hstarts, Bool.false_eq_true, if_false]
    rw [h.step_eq] at halone
    exact halone hstarts

theorem At.executes_command (h : σ.At s depth ahead) :
    Executes (.read .command) σ (.node (Parse.command s depth ahead).value)
      (σ.behind (Parse.command s depth ahead)) := by
  have hcurrent := h.current_eq
  unfold Parse.command
  split
  case h_1 hk => exact .wordCommand (hcurrent ▸ hk) h.executes_wordWithValue
  case h_2 hk => exact .bracketCommand (hcurrent ▸ hk) (h.evaluates .bracketed)
  case h_3 hk => exact .callCommand (hcurrent ▸ hk) (h.evaluates .functionCall)
  case h_4 hword hopen hcall =>
    refine .unknownCommand ?_ h.executes_unknown
    rw [hcurrent]
    simp only [List.mem_cons, List.not_mem_nil, or_false, not_or]
    exact ⟨hword, hopen, hcall⟩

/-! ## Parts of an o-word line -/

theorem At.evaluates_label (h : σ.At s depth ahead) :
    Evaluates .value σ.step (Parse.labelAhead s depth ahead).value
      (σ.behind (Parse.labelled s depth ahead)) := by
  have hlabel := h.step.evaluates_value
  rw [h.step_behind_advance] at hlabel
  exact hlabel

theorem At.current_labelled (h : σ.At s depth ahead) :
    (σ.behind (Parse.labelled s depth ahead)).current = Parse.keywordAhead s depth ahead :=
  (h.behind _).current_eq

theorem At.step_labelled (h : σ.At s depth ahead) :
    (σ.behind (Parse.labelled s depth ahead)).step = σ.behind (Parse.keyworded s depth ahead) := by
  rw [(h.behind _).step_eq, behind_behind]
  rfl

theorem At.executes_closingHeader (h : σ.At s depth ahead) :
    Executes (.read .closingHeader) σ (.node (Parse.closingHeader s depth ahead).value)
      (σ.behind (Parse.closingHeader s depth ahead)) := by
  have hcondition := (h.behind (Parse.keyworded s depth ahead)).evaluates_optionalBracket
  rw [behind_behind, ← h.step_labelled] at hcondition
  have hheader := Executes.closingHeader h.evaluates_label hcondition
  rw [h.current_eq, h.current_labelled] at hheader
  exact hheader

end Session

/-! ## Loops -/

/-- The turn of a loop is made from the session on. -/
def Turn.Executed {β : Type} (round : Round) (closing : β → Option Node) (σ : Session)
    {ahead : List Token} : Turn Node β ahead → Prop
  | .item p => Executes (.turn round) σ (.node p.value) (σ.behind p)
  | .done p => Executes (.turn round) σ (.ended (closing p.value)) (σ.behind p)

namespace Session

variable {s : Setting} {depth : Nat} {σ τ : Session} {ahead : List Token}

section

variable {ε β : Type} {round : Round} {closing : β → Option Node} {start : List Token}

/-- A loop may end with no token read. -/
theorem At.executed_pure (h : σ.At s depth ahead) (value : β)
    (hended : Executes (.turn round) σ (.ended (closing value)) σ) :
    (Turn.done (Parsed.pure value ahead) : Turn Node β ahead).Executed round closing σ := by
  show Executes (.turn round) σ (.ended (closing value)) (σ.behind (Parsed.pure value ahead))
  rw [h.behind_pure]
  exact hended

theorem At.executes_turns
    {turn : (ahead : List Token) → ahead <:+ start → Except (Halt ε) (Turn Node β ahead)}
    (hturn : ∀ {σ : Session} {ahead : List Token} (hstart : ahead <:+ start),
      σ.At s depth ahead → ∃ r, turn ahead hstart = .ok r ∧ r.Executed round closing σ)
    (place : Text) (n : Nat) (h : σ.At s depth ahead) (hstart : ahead <:+ start) :
    ∃ p, Parse.turns s place start turn n ahead hstart = .ok p ∧
      Executes (.turns round place n) σ (.items p.value.1 (p.value.2.map closing))
        (σ.behind p) := by
  induction n generalizing σ ahead with
  | zero =>
    have hoverrun := @Executes.overrun round place σ
    rw [h.maxRounds_eq, h.current_eq] at hoverrun
    refine ⟨_, rfl, ?_⟩
    rw [h.behind_reporting]
    exact hoverrun
  | succ n ih =>
    obtain ⟨r, hr, hexecuted⟩ := hturn hstart h
    unfold Parse.turns
    rw [hr]
    cases r with
    | done p => exact ⟨_, rfl, .ended hexecuted⟩
    | item p =>
      have hbehind := h.behind p
      have hposition : (σ.behind p).position = σ.position ↔ p.rest.length = ahead.length := by
        have hlength := h.length_le
        have hle := p.length_rest_le
        rw [← hbehind.position_eq, ← h.position_eq, Setting.position, Setting.position]
        omega
      dsimp only
      split
      case isTrue hstall =>
        have hstalled := @Executes.stalled round place n _ _ _ hexecuted (hposition.mpr hstall)
        refine ⟨_, rfl, ?_⟩
        rw [← behind_behind, hbehind.behind_reporting]
        rw [hbehind.current_eq, ← h.position_eq] at hstalled
        exact hstalled
      case isFalse hstall =>
        obtain ⟨q, hq, hmore⟩ := ih hbehind (p.suffix.trans hstart)
        rw [hq]
        refine ⟨_, rfl, ?_⟩
        rw [behind_behind] at hmore
        exact .again hexecuted (hposition.not.mpr hstall) hmore

/-- The same of a loop whose turns cannot give up. -/
theorem At.executes_steadyLoop {turn : (ahead : List Token) → Turn Node β ahead}
    (hturn : ∀ {σ : Session} {ahead : List Token}, σ.At s depth ahead →
      (turn ahead).Executed round closing σ)
    (place : Text) (h : σ.At s depth ahead) :
    Executes (.turns round place σ.maxRounds.toNat) σ
      (.items (Parse.steadyLoop s place ahead turn).value.1
        ((Parse.steadyLoop s place ahead turn).value.2.map closing))
      (σ.behind (Parse.steadyLoop s place ahead turn)) := by
  have hok : ∀ {σ : Session} {ahead' : List Token} (_ : ahead' <:+ ahead), σ.At s depth ahead' →
      ∃ r, (Except.ok (turn ahead') : Except (Halt Empty) _) = .ok r ∧ r.Executed round closing σ :=
    fun _ hτ => ⟨_, rfl, hturn hτ⟩
  obtain ⟨p, hp, hexecutes⟩ := h.executes_turns hok place s.maxRounds.toNat List.suffix_rfl
  have hloop : Parse.steadyLoop s place ahead turn = p := by
    unfold Parse.steadyLoop Parse.loop
    rw [hp]
  rw [hloop, h.maxRounds_eq]
  exact hexecutes

end

theorem At.endsCommands_eq (h : σ.At s depth ahead) :
    Parse.endsCommands σ.setting σ.ahead = Parse.endsCommands s ahead := by
  rw [h.setting_eq, h.ahead_eq]

theorem At.executed_commandTurn (h : σ.At s depth ahead) :
    (Parse.commandTurn s depth ahead).Executed .commands (fun _ => none) σ := by
  unfold Parse.commandTurn
  split
  case isTrue hend =>
    exact h.executed_pure () (.commandsEnd (h.endsCommands_eq.trans hend))
  case isFalse hend =>
    have hgo := h.endsCommands_eq.trans (Bool.eq_false_iff.mpr hend)
    split
    case isTrue hk =>
      have hcomment := Executes.commentTurn hgo (h.current_eq ▸ hk)
      rw [h.step_eq, h.current_eq] at hcomment
      exact hcomment
    case isFalse hk => exact .commandTurn hgo (h.current_eq ▸ hk) h.executes_command

/-- A line of commands is read step by step. -/
theorem At.executes_commandLine (h : σ.At s depth ahead) :
    Executes (.read .commandLine) σ (.node (Node.line (Parse.commands s depth ahead).value))
      (σ.behind (Parse.commands s depth ahead)) :=
  .commandLine (h.executes_steadyLoop (fun hτ => hτ.executed_commandTurn) "command line")

/-! ## Looking ahead -/

theorem At.looks (h : σ.At s depth ahead) (label : Option Node) (close : Text) :
    Looks label close σ (Parse.closesHere s depth label close ahead) σ := by
  have hlabel := h.step.evaluates_value
  have hkeyword := (h.step.behind (Parse.value s depth ahead.tail)).current_eq
  have hstep := Framed.step h.inBounds
  have hback := (hstep.trans (hlabel.framed hstep.inBounds)).restored
  have hcurrent := h.current_eq
  unfold Parse.closesHere
  split
  case isTrue hword =>
    dsimp only
    split
    case isTrue hk =>
      rw [Bool.and_eq_true, decide_eq_true_eq, decide_eq_true_eq] at hk
      have hlooks : Looks label close σ _ _ :=
        .closing (hcurrent ▸ hword) hlabel (hkeyword ▸ hk.1) (hkeyword ▸ hk.2)
      rw [hback] at hlooks
      exact hlooks
    case isFalse hk =>
      rw [Bool.and_eq_true, decide_eq_true_eq, decide_eq_true_eq] at hk
      have hlooks : Looks label close σ _ _ := .differs (hcurrent ▸ hword) hlabel (hkeyword ▸ hk)
      rw [hback] at hlooks
      exact hlooks
  case isFalse hword =>
    have hlooks : Looks label close σ _ _ := .other (hcurrent ▸ Bool.eq_false_iff.mpr hword)
    rw [(Framed.refl h.inBounds).restored] at hlooks
    exact hlooks

/-! ## Statements -/

/-- A block that was read in a loop, with the line that closes it or without. -/
theorem At.executes_finished (h : σ.At s depth ahead) (oWord : Token)
    {label condition : Option Node} {keyword close : Text} {σ' : Session}
    (hcondition : Evaluates .optionalBracket σ' condition σ) (hd : ¬s.maxDepth ≤ depth)
    (hclose : Keyword.closing? keyword = some close)
    {body : Parsed (List Node × Option (Option Node)) ahead}
    (hbody : Executes (.turns (.block label close) (keyword ++ " block") s.maxRounds.toNat)
      (σ.deeper 1) (.items body.value.1 body.value.2) ((σ.deeper 1).behind body)) :
    Executes (.read (.block oWord label keyword)) σ'
      (.node (Parse.finished oWord label keyword close condition body).value)
      (σ.behind (Parse.finished oWord label keyword close condition body)) := by
  have hdepth : ¬σ.limits.maxDepth ≤ σ.depth := by rwa [h.maxDepth_eq, h.depth_eq]
  rw [← h.maxRounds_eq] at hbody
  cases hending : body.value.2.join with
  | none =>
    have hblock := @Executes.unclosedBlock oWord _ _ _ _ _ _ _ _ _ hcondition hdepth hclose hbody
      hending
    rw [shallower_behind] at hblock
    simp only [Parse.finished, hending, Option.isSome_none, Bool.false_eq_true, if_false]
    rw [← behind_behind, (h.behind body).behind_reporting]
    exact hblock
  | some header =>
    rw [Option.join_eq_some_iff.mp hending] at hbody
    have hblock := @Executes.closedBlock oWord _ _ _ _ _ _ _ _ _ hcondition hdepth hclose hbody
    rw [shallower_behind] at hblock
    simp only [Parse.finished, hending, Option.isSome_some, if_true]
    exact hblock

/-- An o-word line that opens no block, with a condition or without. -/
theorem At.executes_branch (h : σ.At s depth ahead)
    (hk : (Parse.keywordAhead s depth ahead).kind = .flow)
    (hopens : ¬(Keyword.closing? (Text.upper (Parse.keywordAhead s depth ahead).value)).isSome =
      true) :
    Executes (.read .oStatement) σ
      (.node (.oStatement
        (some (.header (Parse.current s ahead).value (Parse.labelAhead s depth ahead).value
          (Text.upper (Parse.keywordAhead s depth ahead).value)
          (Parse.branched s depth ahead).value))
        (some (Node.line (Parse.commands s depth (Parse.branched s depth ahead).rest).value))))
      (σ.behind ((Parse.branched s depth ahead).behind
        (Parse.commands s depth (Parse.branched s depth ahead).rest))) := by
  have hlabel := h.evaluates_label
  have hkeyword := h.current_labelled
  have hbehind := h.behind (Parse.keyworded s depth ahead)
  have hline := (h.behind (Parse.branched s depth ahead)).executes_commandLine
  rw [behind_behind] at hline
  unfold Parse.branched at hline ⊢
  by_cases helse : Text.upper (Parse.keywordAhead s depth ahead).value = "ELSEIF"
  · have hcondition := hbehind.evaluates_optionalBracket
    rw [behind_behind, ← h.step_labelled] at hcondition
    have hbranch : Parse.branchCondition s depth
        (Text.upper (Parse.keywordAhead s depth ahead).value)
        (Parse.keyworded s depth ahead).rest =
          Parse.optionalBracket s depth (Parse.keyworded s depth ahead).rest := if_pos helse
    rw [hbranch] at hline ⊢
    have hheader := Executes.branch hlabel (hkeyword ▸ hk) (hkeyword ▸ helse) hcondition hline
    rw [h.current_eq] at hheader
    rw [helse]
    exact hheader
  · have hbranch : Parse.branchCondition s depth
        (Text.upper (Parse.keywordAhead s depth ahead).value)
        (Parse.keyworded s depth ahead).rest = Parsed.pure none _ := if_neg helse
    have hend : σ.behind ((Parse.keyworded s depth ahead).behind
        (Parsed.pure (none : Option Node) _)) = (σ.behind (Parse.labelled s depth ahead)).step := by
      rw [← behind_behind, hbehind.behind_pure, h.step_labelled]
    rw [hbranch] at hline ⊢
    rw [hend] at hline
    have hheader := Executes.marker hlabel (hkeyword ▸ hk)
      (hkeyword ▸ Option.not_isSome_iff_eq_none.mp hopens) (hkeyword ▸ helse) hline
    rw [h.current_eq, hkeyword] at hheader
    exact hheader

mutual

/-- A statement is read step by step. -/
theorem At.executes_statement {s : Setting} {depth : Nat} {ahead : List Token} {σ : Session}
    (h : σ.At s depth ahead) :
    ∃ p, Parse.statement s depth ahead = .ok p ∧
      Executes (.read .statement) σ (.node p.value) (σ.behind p) := by
  have hcurrent := h.current_eq
  rw [Parse.statement]
  dsimp only
  split
  case isTrue hk =>
    refine ⟨_, rfl, .unknownStatement ?_ h.executes_unknown⟩
    simpa [hcurrent, or_assoc] using hk
  case isFalse hplain =>
  split
  case isTrue hk =>
    have hbreak := Executes.lineBreak (hcurrent ▸ hk)
    rw [h.step_eq, hcurrent] at hbreak
    exact ⟨_, rfl, hbreak⟩
  case isFalse hend =>
  split
  case isTrue hk =>
    have hcomment := Executes.comment (hcurrent ▸ hk)
    rw [h.step_eq, hcurrent] at hcomment
    exact ⟨_, rfl, hcomment⟩
  case isFalse hcomment =>
  have hassignment : Parse.startsAssignment σ.setting σ.ahead = Parse.startsAssignment s ahead := by
    rw [h.setting_eq, h.ahead_eq]
  split
  case isTrue ha => exact ⟨_, rfl, .assigned (hassignment.trans ha) h.executes_assignment⟩
  case isFalse ha =>
  have hassigns := hassignment.trans (Bool.eq_false_iff.mpr ha)
  split
  case isTrue ho =>
    obtain ⟨p, hp, hline⟩ := h.executes_oStatement
    exact ⟨p, hp, .oWord (hcurrent ▸ ho) hline⟩
  case isFalse ho =>
  have hword : Parse.isOWord σ.current = false := hcurrent ▸ Bool.eq_false_iff.mpr ho
  have hkind : σ.current.kind ∉
      ([.unknown, .operator, .comparison, .endOfLine, .comment] : List TokenKind) := by
    rw [hcurrent]
    simpa [hend, hcomment, not_or, and_assoc] using hplain
  have hline := h.executes_commandLine
  split
  case isTrue hempty =>
    rw [List.isEmpty_iff.mp hempty] at hline
    have hunknown := (h.behind (Parse.commands s depth ahead)).executes_unknown
    rw [behind_behind] at hunknown
    exact ⟨_, rfl, .emptyLine hkind hassigns hword hline hunknown⟩
  case isFalse hempty =>
    refine ⟨_, rfl, .line hkind hassigns hword ?_ hline⟩
    intro hnil
    exact hempty (List.isEmpty_iff.mpr hnil)
termination_by (ahead.length, 1)
decreasing_by exact Prod.Lex.right _ (by omega)

theorem At.executes_oStatement {s : Setting} {depth : Nat} {ahead : List Token} {σ : Session}
    (h : σ.At s depth ahead) :
    ∃ p, Parse.oStatement s depth ahead = .ok p ∧
      Executes (.read .oStatement) σ (.node p.value) (σ.behind p) := by
  have hlabel := h.evaluates_label
  have hkeyword := h.current_labelled
  have hbehind := h.behind (Parse.keyworded s depth ahead)
  by_cases hk : (Parse.keywordAhead s depth ahead).kind = .flow
  · by_cases hopens :
      (Keyword.closing? (Text.upper (Parse.keywordAhead s depth ahead).value)).isSome = true
    · obtain ⟨p, hp, hblock⟩ := hbehind.executes_block (Parse.current s ahead)
        (@Parse.value_reads s True depth (advance s ahead).rest fun _ => trivial).label_eq_ok hopens
      rw [behind_behind, ← h.step_labelled, ← h.current_eq, ← hkeyword] at hblock
      rw [Parse.oStatement_opens hk hopens]
      exact ⟨_, Parsed.tryBehind_ok _ hp, .opens hlabel (hkeyword ▸ hk) (hkeyword ▸ hopens) hblock⟩
    · rw [Parse.oStatement_branch hk hopens]
      exact ⟨_, rfl, h.executes_branch hk hopens⟩
  · have hline := (h.behind (Parse.labelled s depth ahead)).executes_commandLine
    rw [behind_behind] at hline
    have hbare := Executes.bare hlabel (hkeyword ▸ hk) hline
    rw [h.current_eq] at hbare
    rw [Parse.oStatement_bare hk]
    exact ⟨_, rfl, hbare⟩
termination_by (ahead.length, 0)
decreasing_by
  exact Prod.Lex.left _ _ (Parse.length_keyworded_lt ‹_›)

theorem At.executes_block {s : Setting} {depth : Nat} {ahead : List Token} {σ : Session}
    (h : σ.At s depth ahead) (oWord : Token) {label : Option Node} {keyword : Text}
    (hlabel : ∃ text, Node.label label = .ok text)
    (hopens : (Keyword.closing? keyword).isSome = true) :
    ∃ p, Parse.block s depth oWord label keyword ahead = .ok p ∧
      Executes (.read (.block oWord label keyword)) σ (.node p.value) (σ.behind p) := by
  have hcondition := h.evaluates_optionalBracket
  have hheader := h.behind (Parse.optionalBracket s depth ahead)
  by_cases hd : s.maxDepth ≤ depth
  · have hdepth : (σ.behind (Parse.optionalBracket s depth ahead)).limits.maxDepth ≤
        (σ.behind (Parse.optionalBracket s depth ahead)).depth := by
      rwa [hheader.maxDepth_eq, hheader.depth_eq]
    have hline := (hheader.report ⟨.deepBlock s.maxDepth keyword, oWord.line⟩).executes_commandLine
    rw [behind_report, behind_behind] at hline
    refine ⟨_, Parse.block_of_le s hd oWord label keyword ahead, .deepBlock hcondition hdepth ?_⟩
    rw [hheader.maxDepth_eq]
    exact hline
  · obtain ⟨close, hclose⟩ := Option.isSome_iff_exists.mp hopens
    rw [Parse.block_eq_loop s hd oWord label hclose]
    have hturn : ∀ {τ : Session} {ahead' : List Token}
        (_ : ahead' <:+ (Parse.optionalBracket s depth ahead).rest), τ.At s (depth + 1) ahead' →
        ∃ r, Parse.blockTurn s depth label close ahead' = .ok r ∧
          r.Executed (.block label close) id τ := by
      intro τ ahead' _ hτ
      by_cases hend : (Parse.current s ahead').kind = .endOfFile
      · refine ⟨_, Parse.blockTurn_ended hend, ?_⟩
        exact hτ.executed_pure none (.blockEnd (hτ.current_eq ▸ hend))
      · have hend' : τ.current.kind ≠ .endOfFile := hτ.current_eq ▸ hend
        have hlooks := hτ.looks label close
        obtain ⟨r, hr⟩ := Parse.closesHere_eq_ok s (depth + 1) hlabel close ahead'
        rw [hr] at hlooks
        cases r with
        | true =>
          refine ⟨_, Parse.blockTurn_closed hend hr, ?_⟩
          exact .blockClosed hend' hlooks hτ.executes_closingHeader
        | false =>
          obtain ⟨p, hp, hstatement⟩ := hτ.executes_statement
          exact ⟨_, Parse.blockTurn_open hend hr hp, .blockTurn hend' hlooks hstatement⟩
    obtain ⟨body, hbody, hturns⟩ := (hheader.deeper 1).executes_turns hturn (keyword ++ " block")
      s.maxRounds.toNat List.suffix_rfl
    rw [Option.map_id] at hturns
    have hblock := hheader.executes_finished oWord hcondition hd hclose hturns
    rw [behind_behind] at hblock
    rw [Parse.loop, hbody]
    exact ⟨_, rfl, hblock⟩
termination_by (ahead.length, 2)
decreasing_by
  exact Prod.Lex.right' _ (Nat.le_trans (List.IsSuffix.length_le ‹_›) (Parsed.length_rest_le _))
    (by omega)

end

/-! ## Programs -/

theorem At.executed_programTurn (h : σ.At s depth ahead) :
    ∃ r, Parse.programTurn s depth ahead = .ok r ∧ r.Executed .program (fun _ => none) σ := by
  by_cases hend : (Parse.current s ahead).kind = .endOfFile
  · refine ⟨_, Parse.programTurn_ended hend, ?_⟩
    exact h.executed_pure () (.programEnd (h.current_eq ▸ hend))
  · obtain ⟨p, hp, hstatement⟩ := h.executes_statement
    exact ⟨_, Parse.programTurn_item hend hp, .programTurn (h.current_eq ▸ hend) hstatement⟩

/-- A program is read step by step. -/
theorem At.executes_program (h : σ.At s depth ahead) :
    ∃ p, Parse.program s depth ahead = .ok p ∧
      Executes (.read .program) σ (.program p.value) (σ.behind p) := by
  obtain ⟨statements, hstatements, hturns⟩ := h.executes_turns
    (fun _ hτ => hτ.executed_programTurn) "program" s.maxRounds.toNat List.suffix_rfl
  have hbehind := h.behind statements
  obtain ⟨breaks, hvalue, hbreaks⟩ := hbehind.gathers_breaks
  have hend := (hbehind.behind (Parse.lineBreaks statements.rest)).current_eq
  rw [← h.maxRounds_eq] at hturns
  rw [Parse.program_eq_loop, Parse.loop, hstatements]
  refine ⟨_, rfl, ?_⟩
  unfold Parse.leftovers
  dsimp only
  split
  case isTrue hk =>
    have hprogram := Executes.wholeProgram hturns hbreaks (hend ▸ hk)
    rw [← hvalue, behind_behind] at hprogram
    exact hprogram
  case isFalse hk =>
    have hrest := (hbehind.behind (Parse.lineBreaks statements.rest)).executes_remainder
    have hprogram := Executes.cutProgram hturns hbreaks (hend ▸ hk) hrest
    rw [← hvalue, behind_behind, behind_behind] at hprogram
    exact hprogram

end Session

end Gcode
