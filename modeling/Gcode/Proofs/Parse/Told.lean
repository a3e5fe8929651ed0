import Gcode.Proofs.Parse.Expression

/-!
# What is reported of a tree

A parse reports what is wrong in the order in which it reads. The rules here say which reports
come with which tree: a missing operand, a bracket or a block that is not closed and stray text
are each reported once, a text that was cut off comes with the limit that was reached, and nothing
else is reported but limits. What was seen while a parse looked for the end of a block is not
among the reports.

The limit on the rounds of a loop may be reported only if `short` holds: the loop may take fewer
rounds than there are tokens.

## Main definitions

* `Report.Limits` — the report of a limit.
* `Told.Expression`, `Told.Command`, `Told.Header` — parts of statements with their reports.
* `Told.Simple`, `Told.Statements`, `Told.Program` — statements with their reports.

## Main statements

* `Parse.value_told` — the reports of an expression are those of its tree.
* `Parse.optionalBracket_told` — the same of an expression in brackets.
-/

namespace Gcode

/-- Whether the problem is that a loop came to an end before its time. -/
def Problem.isOfLoop : Problem → Bool
  | .stalled _ _ | .overrun _ _ => true
  | _ => false

/-- The report of a limit, which is that on the rounds of a loop only if `short` holds. -/
structure Report.Limits (short : Prop) (r : Report) : Prop where
  kind_eq : r.kind = .livenessGuard
  short_of : r.problem.isOfLoop = true → short

/-- Nothing but limits is reported. -/
def OnlyLimits (short : Prop) (rs : List Report) : Prop := ∀ r ∈ rs, r.Limits short

theorem onlyLimits_nil (short : Prop) : OnlyLimits short [] := fun _ h => by cases h

theorem onlyLimits_singleton {short : Prop} {r : Report} (h : r.Limits short) :
    OnlyLimits short [r] := List.forall_mem_singleton.mpr h

namespace Told

/-- The reports that come with an expression. -/
inductive Expression : Option Node → List Report → Prop
  | missing (t : Token) : Expression none [⟨.missingOperand t, t.line⟩]
  | number (text : Text) : Expression (some (.number text)) []
  | parameter (text : Text) : Expression (some (.parameter text)) []
  | word (letter : Text) : Expression (some (.word letter none)) []
  | bareCall (name : Text) : Expression (some (.call name none)) []
  | call (name : Text) {argument : Node} {rs : List Report} : Expression (some argument) rs →
    Expression (some (.call name (some argument))) rs
  | unary (sign : Text) {operand : Option Node} {rs : List Report} : Expression operand rs →
    Expression (some (.unary sign operand)) rs
  | binary (operator : Text) {left right : Option Node} {rs ss : List Report} :
    Expression left rs → Expression right ss →
    Expression (some (.binary operator left right)) (rs ++ ss)
  | closed {inner : Option Node} {rs : List Report} : Expression inner rs →
    Expression (some (.bracketed inner true)) rs
  | unclosed (t : Token) {inner : Option Node} {rs : List Report} : Expression inner rs →
    Expression (some (.bracketed inner false))
      (rs ++ [⟨.missingToken .closeBracket t, t.line⟩])
  | cutOff (text : Text) (line : Int) {r : Report} : r.Limits False →
    Expression (some (.unknown text line)) [r]

/-- The reports that come with an expression that need not be there. -/
inductive Optional : Option Node → List Report → Prop
  | missing : Optional none []
  | present {n : Node} {rs : List Report} : Expression (some n) rs → Optional (some n) rs

/-- What is reported of stray text: nothing of blanks. -/
def strayReports (text : Text) (line : Int) : List Report :=
  if Text.isBlankOnly text then [] else [⟨.strayText text, line⟩]

/-- The reports that come with a command. -/
inductive Command : Node → List Report → Prop
  | comment (text : Text) : Command (.comment text) []
  | stray (text : Text) (line : Int) : Command (.unknown text line) (strayReports text line)
  | word (letter : Text) {value : Option Node} {rs : List Report} : Optional value rs →
    Command (.word letter value) rs
  | expression {n : Node} {rs : List Report} : Expression (some n) rs → Command n rs

/-- The reports that come with items, one behind the other. -/
inductive Series {α : Type} (Item : α → List Report → Prop) : List α → List Report → Prop
  | nil : Series Item [] []
  | cons {item : α} {items : List α} {rs ss : List Report} : Item item rs →
    Series Item items ss → Series Item (item :: items) (rs ++ ss)

/-- The reports that come with a header. -/
inductive Header : Node → List Report → Prop
  | header (oWord keyword : Text) {label condition : Option Node} {rs ss : List Report} :
    Expression label rs → Optional condition ss →
    Header (.header oWord label keyword condition) (rs ++ ss)

/-- The reports that come with the end of a block. -/
inductive Closing : Option Node → List Report → Prop
  | missing (start keyword close : Text) (line : Int) :
    Closing none [⟨.unclosedBlock start keyword close, line⟩]
  | header {n : Node} {rs : List Report} : Header n rs → Closing (some n) rs

variable (short : Prop)

/-- The reports that come with a line of commands. -/
def Line (nodes : List Node) (rs : List Report) : Prop :=
  ∃ ss gs, rs = ss ++ gs ∧ Series Command nodes ss ∧ OnlyLimits short gs

/-- The reports that come with a statement that is no block. -/
inductive Simple : Node → List Report → Prop
  | lineBreak (text : Text) : Simple (.endOfLine text) []
  | comment (text : Text) : Simple (.comment text) []
  | stray (text : Text) (line : Int) {gs : List Report} : OnlyLimits short gs →
    Simple (.unknown text line) (gs ++ strayReports text line)
  | assignment (target : Text) {value : Option Node} {rs : List Report} : Expression value rs →
    Simple (.assignment target value) rs
  | commands {nodes : List Node} {rs : List Report} : Line short nodes rs →
    Simple (.commandLine (nodes.map some)) rs
  | flat {header : Node} {nodes : List Node} {rs gs ss : List Report} : Header header rs →
    OnlyLimits short gs → Line short nodes ss →
    Simple (.oStatement (some header) (some (.commandLine (nodes.map some)))) (rs ++ (gs ++ ss))

/-- The reports that come with statements, one behind the other. -/
inductive Statements : List Node → List Report → Prop
  | nil : Statements [] []
  | simple {node : Node} {nodes : List Node} {rs ss : List Report} : Simple short node rs →
    Statements nodes ss → Statements (node :: nodes) (rs ++ ss)
  | block (keyword : Text) {header : Node} {body nodes : List Node} {closing : Option Node}
    {rs bs gs cs ss : List Report} : Header header rs → Statements body bs →
    OnlyLimits short gs → Closing closing cs → Statements nodes ss →
    Statements (.block keyword (some header) (body.map some) closing :: nodes)
      (rs ++ (bs ++ (gs ++ cs)) ++ ss)

/-- The reports that come with a program. What a limit left of it is text. -/
inductive Program : List Node → List Report → Prop
  | whole {nodes : List Node} {rs : List Report} : Statements short nodes rs → Program nodes rs
  | halted {nodes : List Node} {rs : List Report} {r : Report} : Statements short nodes rs →
    r.Limits short → Program nodes (rs ++ [r])
  | cutOff (text : Text) (line : Int) {nodes : List Node} {rs : List Report} {r : Report} :
    Statements short nodes rs → r.Limits short →
    Program (nodes ++ [.unknown text line]) (rs ++ [r])

variable {short}

theorem Statements.single {node : Node} {rs : List Report} (h : Simple short node rs) :
    Statements short [node] rs := by
  have key := Statements.simple h .nil
  rwa [List.append_nil] at key

theorem Statements.append {ns ms : List Node} {rs ss : List Report} (h : Statements short ns rs)
    (k : Statements short ms ss) : Statements short (ns ++ ms) (rs ++ ss) := by
  induction h with
  | nil => exact k
  | simple hs _ ih =>
    rw [List.append_assoc]
    exact .simple hs ih
  | block keyword hh hb hg hc _ _ ih =>
    rw [List.append_assoc]
    exact .block keyword hh hb hg hc ih

/-- Series of statements are statements. -/
theorem Series.statements {nodes : List Node} {rs : List Report}
    (h : Series (fun node => Statements short [node]) nodes rs) : Statements short nodes rs := by
  induction h with
  | nil => exact .nil
  | cons hitem _ ih => exact hitem.append ih

end Told

namespace Parse

open Told (Expression Optional)

variable (s : Setting)

/-! ## Expressions -/

theorem withSigns_told {operand : Option Node} {rs : List Report} (signs : List Text)
    (h : Expression operand rs) : Expression (withSigns signs operand) rs := by
  induction signs with
  | nil => exact h
  | cons sign signs ih => exact .unary sign ih

/-- The limit on nesting is none on rounds. -/
theorem limits_of_nesting {short : Prop} {problem : Problem} (hk : problem.kind = .livenessGuard)
    (hl : problem.isOfLoop = false) (line : Int) : Report.Limits short ⟨problem, line⟩ :=
  ⟨hk, fun h => by rw [hl] at h; cases h⟩

theorem groupText_reports (level : Int) (ahead : List Token) :
    (groupText level ahead).reports = [] := by
  induction ahead generalizing level with
  | nil => rfl
  | cons t rest ih =>
    unfold groupText
    split
    · rfl
    split
    · exact ih _
    split
    · split
      · rfl
      · exact ih _
    · exact ih _

theorem cutOffText_reports (level : Nat) (ahead : List Token) :
    (cutOffText s level ahead).reports = [] := by
  induction ahead generalizing level with
  | nil => rfl
  | cons t rest ih =>
    unfold cutOffText
    split
    · rfl
    · exact ih _

theorem expect_reports (kind : TokenKind) (ahead : List Token) :
    (expect s kind ahead).reports =
      if (expect s kind ahead).value.isSome then []
      else [⟨.missingToken kind (current s ahead), (current s ahead).line⟩] := by
  unfold expect
  dsimp only
  split <;> rfl

mutual

/-- The reports of an expression are those of its tree. -/
theorem value_told (depth : Nat) (ahead : List Token) :
    Expression (value s depth ahead).value (value s depth ahead).reports := by
  rw [value]
  exact chain_told depth (Node.height (operand s depth ahead).value) 0
    (operand s depth ahead).rest (operand_told depth ahead)
termination_by (ahead.length, 4)
decreasing_by
  · exact Prod.Lex.right _ (by omega)
  · exact Prod.Lex.right' _ (Parsed.length_rest_le _) (by omega)

/-- The operators behind an operand add their reports to those of the operand. -/
theorem chain_told (depth : Nat) {left : Option Node} (height : Nat) (least : Int)
    (ahead : List Token) {rs : List Report} (hl : Expression left rs) :
    Expression (chain s depth left height least ahead).value
      (rs ++ (chain s depth left height least ahead).reports) := by
  match ahead with
  | [] =>
    rw [chain]
    simpa [Parsed.pure] using hl
  | t :: rest =>
    rw [chain]
    split
    · exact link_told depth t height least rest hl
    · simpa [Parsed.pure] using hl
termination_by (ahead.length, 3)
decreasing_by exact Prod.Lex.left _ _ (by simp)

theorem link_told (depth : Nat) (t : Token) {left : Option Node} (height : Nat) (least : Int)
    (ahead : List Token) {rs : List Report} (hl : Expression left rs) :
    Expression (link s depth t left height least ahead).value
      (rs ++ (link s depth t left height least ahead).reports) := by
  rw [link]
  split
  · dsimp only [Parsed.map, Parsed.withReport, cutOff]
    rw [cutOffText_reports]
    exact .binary _ hl (.cutOff _ _ (limits_of_nesting rfl rfl _))
  · have hright := tighten_told depth (Keyword.precedence t.value) (operand s depth ahead).rest
      (operand_told depth ahead)
    have key := chain_told depth
      (1 + max height (Node.height (tighten s depth (operand s depth ahead).value
        (Keyword.precedence t.value) (operand s depth ahead).rest).value)) least
      (tighten s depth (operand s depth ahead).value (Keyword.precedence t.value)
        (operand s depth ahead).rest).rest (.binary t.value hl hright)
    rw [List.append_assoc] at key
    exact key
termination_by (ahead.length, 5)
decreasing_by
  · exact Prod.Lex.right _ (by omega)
  · exact Prod.Lex.right' _ (Parsed.length_rest_le _) (by omega)
  · refine Prod.Lex.right' _ ?_ (by omega)
    exact Nat.le_trans (Parsed.length_rest_le _) (Parsed.length_rest_le _)

theorem tighten_told (depth : Nat) {right : Option Node} (bound : Int) (ahead : List Token)
    {rs : List Report} (hr : Expression right rs) :
    Expression (tighten s depth right bound ahead).value
      (rs ++ (tighten s depth right bound ahead).reports) := by
  match ahead with
  | [] =>
    rw [tighten]
    simpa [Parsed.pure] using hr
  | t :: rest =>
    rw [tighten]
    split
    · have htighter := link_told depth t (Node.height right) (Keyword.precedence t.value) rest hr
      have key := tighten_told depth bound (link s depth t right (Node.height right)
        (Keyword.precedence t.value) rest).rest htighter
      rw [List.append_assoc] at key
      exact key
    · simpa [Parsed.pure] using hr
termination_by (ahead.length, 3)
decreasing_by
  · exact Prod.Lex.left _ _ (by simp)
  · refine Prod.Lex.left _ _ ?_
    exact Nat.lt_succ_of_le (Parsed.length_rest_le _)

theorem operand_told (depth : Nat) (ahead : List Token) :
    Expression (operand s depth ahead).value (operand s depth ahead).reports := by
  obtain ⟨-, -, hreports⟩ := signs_eq ahead
  rw [operand]
  dsimp only
  split
  · refine withSigns_told _ ?_
    dsimp only [Parsed.behind, Parsed.map, Parsed.withReport, cutOff]
    rw [hreports, cutOffText_reports]
    exact .cutOff _ _ (limits_of_nesting rfl rfl _)
  · refine withSigns_told _ ?_
    dsimp only [Parsed.behind, Parsed.map]
    rw [hreports]
    exact primary_told (depth + (signs ahead).value.length) (signs ahead).rest
termination_by (ahead.length, 2)
decreasing_by exact Prod.Lex.right' _ (Parsed.length_rest_le _) (by omega)

theorem primary_told (depth : Nat) (ahead : List Token) :
    Expression (primary s depth ahead).value (primary s depth ahead).reports := by
  match ahead with
  | [] =>
    rw [primary]
    exact .missing _
  | t :: rest =>
    unfold primary
    split
    case h_1 => exact .number _
    case h_2 => exact .parameter _
    case h_3 => exact opened_told depth t rest
    case h_4 =>
      cases hr : rest with
      | nil => exact .bareCall _
      | cons u more =>
        dsimp only
        split
        · exact .call _ (opened_told depth u more)
        · exact .bareCall _
    case h_5 => exact .word _
    case h_6 => exact .missing _
termination_by (ahead.length, 1)
decreasing_by
  · exact Prod.Lex.right _ (by omega)
  · exact Prod.Lex.left _ _ (by simp)

theorem opened_told (depth : Nat) (t : Token) (rest : List Token) :
    Expression (some (opened s depth t rest).value) (opened s depth t rest).reports := by
  rw [opened]
  split
  · dsimp only [Parsed.map, Parsed.withReport, bracketGroup]
    rw [groupText_reports]
    exact .cutOff _ _ (limits_of_nesting rfl rfl _)
  · exact enclosed_told depth rest
termination_by (rest.length + 1, 0)
decreasing_by exact Prod.Lex.left _ _ (by simp)

theorem enclosed_told (depth : Nat) (ahead : List Token) :
    Expression (some (enclosed s depth ahead).value) (enclosed s depth ahead).reports := by
  have hinner := value_told (depth + 1) ahead
  rw [enclosed]
  dsimp only [Parsed.behind, Parsed.map]
  rw [expect_reports]
  cases (expect s .closeBracket (value s (depth + 1) ahead).rest).value with
  | none => exact .unclosed _ hinner
  | some close =>
    simp only [Option.isSome_some, if_true, List.append_nil]
    exact .closed hinner
termination_by (ahead.length, 5)
decreasing_by exact Prod.Lex.right _ (by omega)

end

/-! ## Expressions read without a look at the token at hand -/

theorem bracketed_told (depth : Nat) {ahead : List Token}
    (hk : (current s ahead).kind = .openBracket) :
    Expression (some (bracketed s depth ahead).value) (bracketed s depth ahead).reports := by
  obtain ⟨t, rest, rfl, ht⟩ := eq_cons_of_kind s hk (by decide)
  rw [← opened_eq_bracketed s depth ht]
  exact opened_told s depth t rest

/-- The reports of an expression in brackets, if there is one, are those of its tree. -/
theorem optionalBracket_told (depth : Nat) (ahead : List Token) :
    Optional (optionalBracket s depth ahead).value (optionalBracket s depth ahead).reports := by
  unfold optionalBracket
  split
  case isTrue hk => exact .present (bracketed_told s depth hk)
  case isFalse => exact .missing

theorem functionCall_told (depth : Nat) (ahead : List Token) :
    Expression (some (functionCall s depth ahead).value) (functionCall s depth ahead).reports := by
  have hargument := optionalBracket_told s depth (advance s ahead).rest
  unfold functionCall
  dsimp only [Parsed.behind, Parsed.map]
  generalize (optionalBracket s depth (advance s ahead).rest).value = argument at hargument ⊢
  generalize (optionalBracket s depth (advance s ahead).rest).reports = rs at hargument ⊢
  cases hargument with
  | missing => exact .bareCall _
  | present h => exact .call _ h

/-! ## Values that are there -/

theorem isSome_withSigns {operand : Option Node} (h : operand.isSome) (signs : List Text) :
    (withSigns signs operand).isSome := by
  cases signs with
  | nil => exact h
  | cons => rfl

mutual

/-- Operators behind an operand that is there leave an operand that is there. -/
theorem chain_isSome (depth : Nat) {left : Option Node} (h : left.isSome) (height : Nat)
    (least : Int) (ahead : List Token) :
    (chain s depth left height least ahead).value.isSome := by
  match ahead with
  | [] =>
    rw [chain]
    exact h
  | t :: rest =>
    rw [chain]
    split
    · exact link_isSome depth t left height least rest
    · exact h
termination_by (ahead.length, 0)
decreasing_by exact Prod.Lex.left _ _ (by simp)

theorem link_isSome (depth : Nat) (t : Token) (left : Option Node) (height : Nat) (least : Int)
    (ahead : List Token) : (link s depth t left height least ahead).value.isSome := by
  rw [link]
  split
  · rfl
  · dsimp only [Parsed.behind]
    exact chain_isSome depth rfl _ least _
termination_by (ahead.length, 1)
decreasing_by
  refine Prod.Lex.right' _ ?_ (by omega)
  exact Nat.le_trans (Parsed.length_rest_le _) (Parsed.length_rest_le _)

end

theorem primary_isSome (depth : Nat) {t : Token} (rest : List Token)
    (h : t.kind = .number ∨ t.kind = .parameter ∨ t.kind = .openBracket ∨ t.kind = .function) :
    (primary s depth (t :: rest)).value.isSome := by
  unfold primary
  split
  case h_4 =>
    cases rest with
    | nil => rfl
    | cons u rest =>
      dsimp only
      split <;> rfl
  case h_6 hnumber hparameter hbracket hfunction _ =>
    rcases h with h | h | h | h
    exacts [(hnumber h).elim, (hparameter h).elim, (hbracket h).elim, (hfunction h).elim]
  all_goals rfl

/-- Where a value begins, there is one. -/
theorem value_isSome (depth : Nat) {ahead : List Token}
    (h : startsValue (current s ahead) = true) : (value s depth ahead).value.isSome := by
  obtain ⟨hvalue, hrest, -⟩ := signs_eq ahead
  rw [value]
  dsimp only [Parsed.behind]
  refine chain_isSome s depth ?_ _ 0 _
  rw [operand]
  dsimp only
  split
  · exact isSome_withSigns rfl _
  dsimp only [Parsed.behind, Parsed.map]
  cases hsigns : (signs ahead).value with
  | cons sign more => rfl
  | nil =>
    refine isSome_withSigns ?_ _
    have hnone : ahead.takeWhile isSign = [] := by simpa [hsigns] using hvalue
    cases ahead with
    | nil => simp [startsValue, isSign, Setting.stop] at h
    | cons t rest =>
      have ht : isSign t = false := by
        cases hs : isSign t with
        | false => rfl
        | true => simp [hs] at hnone
      rw [hrest, List.dropWhile_cons, ht]
      rw [current_cons] at h
      simp only [startsValue, ht, Bool.or_false, Bool.or_eq_true, decide_eq_true_eq,
        or_assoc] at h
      exact primary_isSome s _ rest h

end Parse

end Gcode
