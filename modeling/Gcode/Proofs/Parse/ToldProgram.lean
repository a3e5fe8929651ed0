import Gcode.Proofs.Parse.OWord
import Gcode.Proofs.Parse.Told

/-!
# What is reported of a program

A loop reports what its turns report, in their order, and nothing else but that it may take no
more rounds: since every item takes a token, it never stalls, and a loop that may take more rounds
than there are tokens ahead is not cut short. So the reports about a program are those that come
with its tree.

## Main definitions

* `Turn.Told` — what a turn reported comes with its item, which took a token, or with the end of
  the loop.
* `Told.Ending` — how a loop ended, what it left, and what was reported then.
* `EnoughRounds` — a loop over the tokens ahead is not cut short.

## Main statements

* `Parse.turns_told` — the reports of a loop are those of its items and of its end.
* `Parse.statement_told` — the reports of a statement are those of its tree.
* `Parse.program_told` — the same of a program.
-/

namespace Gcode

variable {ε α β : Type}

/-- What a turn reported comes with the item, which took a token, or with the end of the loop. -/
def Turn.Told (Item : α → List Report → Prop) (Done : β → List Token → List Report → Prop)
    {ahead : List Token} : Turn α β ahead → Prop
  | .item p => Item p.value p.reports ∧ p.rest.length < ahead.length
  | .done p => Done p.value p.rest p.reports

/-- How a loop ended, what it left, and what was reported then. -/
inductive Told.Ending (short : Prop) (Done : β → List Token → List Report → Prop) :
    Option β → List Token → List Report → Prop
  | done {result : β} {rest : List Token} {rs : List Report} : Done result rest rs →
    Ending short Done (some result) rest rs
  | halted (rest : List Token) {r : Report} : r.Limits short → Ending short Done none rest [r]

/-- A loop over the tokens ahead is not cut short, unless `short` holds: it may take more rounds
than there are tokens. -/
def EnoughRounds (s : Setting) (short : Prop) (ahead : List Token) : Prop :=
  ¬short → (ahead.length : Int) < s.maxRounds

namespace EnoughRounds

variable {s : Setting} {short : Prop} {ahead ahead' : List Token}

theorem mono (h : EnoughRounds s short ahead) (hle : ahead'.length ≤ ahead.length) :
    EnoughRounds s short ahead' := by
  intro hs
  have hlt := h hs
  omega

theorem lt_toNat (h : EnoughRounds s short ahead) (hs : ¬short) :
    ahead.length < s.maxRounds.toNat := by
  have hlt := h hs
  omega

end EnoughRounds

namespace Parse

open Told (Expression Optional Command Series Header Closing Simple Statements Ending)

variable (s : Setting) {short : Prop}

/-! ## Loops -/

section

variable {Item : α → List Report → Prop} {Done : β → List Token → List Report → Prop} (place : Text)
  {start : List Token}
  {turn : (ahead : List Token) → ahead <:+ start → Except (Halt ε) (Turn α β ahead)}

/-- A loop reports what its items and its end report. It is cut short only if it may take no more
rounds than there are tokens. -/
theorem turns_told (hturn : ∀ ahead h r, turn ahead h = .ok r → r.Told Item Done) (n : Nat)
    (ahead : List Token) (h : ahead <:+ start) (hn : ¬short → ahead.length < n)
    {p : Parsed (List α × Option β) ahead} (hp : turns s place start turn n ahead h = .ok p) :
    ∃ rs es, p.reports = rs ++ es ∧ Series Item p.value.1 rs ∧
      Ending short Done p.value.2 p.rest es := by
  induction n generalizing ahead with
  | zero =>
    cases hp
    refine ⟨[], _, rfl, .nil, .halted ahead ⟨rfl, fun _ => ?_⟩⟩
    exact Classical.byContradiction fun hs => Nat.not_lt_zero _ (hn hs)
  | succ n ih =>
    obtain ⟨q, hq, rfl⟩ | ⟨q, hq, hstall, -⟩ | ⟨q, more, hq, -, hmore, rfl⟩ := turns_succ_eq_ok hp
    · exact ⟨[], _, rfl, .nil, .done (hturn ahead h _ hq)⟩
    · obtain ⟨-, hlt⟩ := hturn ahead h _ hq
      exact absurd hstall (Nat.ne_of_lt hlt)
    · obtain ⟨hitem, hlt⟩ := hturn ahead h _ hq
      obtain ⟨rs, es, hreports, hseries, hend⟩ := ih q.rest (q.suffix.trans h)
        (fun hs => Nat.lt_of_lt_of_le hlt (Nat.le_of_lt_succ (hn hs))) hmore
      refine ⟨q.reports ++ rs, es, ?_, .cons hitem hseries, hend⟩
      dsimp only [Parsed.behind, Parsed.map]
      rw [hreports, List.append_assoc]

/-- The same of a loop whose turns cannot give up. -/
theorem steadyLoop_told {turn : (ahead : List Token) → Turn α β ahead}
    (hturn : ∀ ahead, (turn ahead).Told Item Done) (hn : EnoughRounds s short start) :
    ∃ rs es, (steadyLoop s place start turn).reports = rs ++ es ∧
      Series Item (steadyLoop s place start turn).value.1 rs ∧
        Ending short Done (steadyLoop s place start turn).value.2
          (steadyLoop s place start turn).rest es := by
  refine turns_told s place (fun ahead h r hr => ?_) _ start List.suffix_rfl hn.lt_toNat
    (loop_eq_steadyLoop s place turn)
  cases hr
  exact hturn ahead

end

/-! ## Lines of commands -/

theorem wordWithValue_told (depth : Nat) (ahead : List Token) :
    Command (wordWithValue s depth ahead).value (wordWithValue s depth ahead).reports := by
  unfold wordWithValue
  dsimp only [Parsed.behind, Parsed.map, advance, List.nil_append]
  refine .word _ ?_
  split
  case isTrue hv =>
    obtain ⟨n, hn⟩ := Option.isSome_iff_exists.mp (value_isSome s depth hv)
    have hvalue := value_told s depth ahead.tail
    rw [hn] at hvalue ⊢
    exact .present hvalue
  case isFalse => exact .missing

/-- The reports of a command are those of its tree. -/
theorem command_told (depth : Nat) (ahead : List Token) :
    Command (command s depth ahead).value (command s depth ahead).reports := by
  unfold command
  split
  case h_1 => exact wordWithValue_told s depth ahead
  case h_2 hk => exact .expression (bracketed_told s depth hk)
  case h_3 => exact .expression (functionCall_told s depth ahead)
  case h_4 => exact .stray _ _

theorem commandTurn_told (depth : Nat) (ahead : List Token) :
    (commandTurn s depth ahead).Told Command fun _ _ rs => rs = [] := by
  have hreads := @commandTurn_reads s True depth ahead
  unfold commandTurn at hreads ⊢
  split
  · rfl
  case isFalse hend =>
    rw [if_neg hend] at hreads
    split
    case isTrue hk =>
      rw [if_pos hk] at hreads
      exact ⟨.comment _, (hreads fun _ => trivial).length_lt⟩
    case isFalse hk =>
      rw [if_neg hk] at hreads
      exact ⟨command_told s depth ahead, (hreads fun _ => trivial).length_lt⟩

/-- The reports of a line of commands are those of its commands, and of a limit. -/
theorem commands_told (depth : Nat) {ahead : List Token}
    (hn : EnoughRounds s short ahead) :
    Told.Line short (commands s depth ahead).value (commands s depth ahead).reports := by
  obtain ⟨rs, es, hreports, hseries, hend⟩ :=
    steadyLoop_told s "command line" (commandTurn_told s depth) hn
  refine ⟨rs, es, hreports, hseries, ?_⟩
  generalize (steadyLoop s _ ahead (commandTurn s depth)).value.2 = result at hend
  generalize (steadyLoop s _ ahead (commandTurn s depth)).rest = rest at hend
  cases hend with
  | done hnil => exact hnil ▸ onlyLimits_nil short
  | halted _ hr => exact onlyLimits_singleton hr

/-! ## Assignments and headers -/

theorem assignment_told (depth : Nat) {ahead : List Token}
    (h : startsAssignment s ahead = true) :
    Simple short (assignment s depth ahead).value (assignment s depth ahead).reports := by
  rw [startsAssignment, Bool.and_eq_true, decide_eq_true_eq, decide_eq_true_eq] at h
  obtain ⟨t, rest, rfl, ht⟩ := eq_cons_of_kind s h.1 (by decide)
  obtain ⟨u, rest, rfl, hu⟩ := eq_cons_of_kind s h.2 (by decide)
  unfold assignment
  dsimp only [advance, Parsed.behind, Parsed.map, List.tail_cons]
  rw [expect_cons_of_eq s hu]
  exact .assignment _ (value_told s depth rest)

theorem flatStatement_told (depth : Nat) {header : Node} {ahead : List Token}
    {rs gs : List Report} (h : Header header rs) (hg : OnlyLimits short gs)
    (hn : EnoughRounds s short ahead) :
    Simple short (flatStatement s depth header ahead).value
      (rs ++ (gs ++ (flatStatement s depth header ahead).reports)) :=
  .flat h hg (commands_told s depth hn)

theorem branchCondition_told (depth : Nat) (keyword : Text) (ahead : List Token) :
    Optional (branchCondition s depth keyword ahead).value
      (branchCondition s depth keyword ahead).reports := by
  unfold branchCondition
  split
  · exact optionalBracket_told s depth ahead
  · exact .missing

theorem labelled_told (depth : Nat) (ahead : List Token) :
    Expression (labelAhead s depth ahead).value (labelled s depth ahead).reports :=
  value_told s depth (advance s ahead).rest

theorem keyworded_told (depth : Nat) (ahead : List Token) :
    Expression (labelAhead s depth ahead).value (keyworded s depth ahead).reports := by
  have hreports : (keyworded s depth ahead).reports = (labelled s depth ahead).reports :=
    List.append_nil _
  rw [hreports]
  exact labelled_told s depth ahead

theorem branched_told (depth : Nat) (ahead : List Token) :
    Header (.header (current s ahead).value (labelAhead s depth ahead).value
      (Text.upper (keywordAhead s depth ahead).value) (branched s depth ahead).value)
      (branched s depth ahead).reports := by
  have hcondition := branchCondition_told s depth
    (Text.upper (keywordAhead s depth ahead).value) (keyworded s depth ahead).rest
  exact .header _ _ (keyworded_told s depth ahead) hcondition

theorem closingHeader_told (depth : Nat) (ahead : List Token) :
    Header (closingHeader s depth ahead).value (closingHeader s depth ahead).reports := by
  rw [closingHeader_eq]
  exact .header _ _ (keyworded_told s depth ahead)
    (optionalBracket_told s depth (keyworded s depth ahead).rest)

/-! ## Blocks -/

/-- What is reported when a block is read to its end: of the line that closes it, or nothing. -/
def EndTold (closing : Option Node) (_rest : List Token) (rs : List Report) : Prop :=
  (closing = none ∧ rs = []) ∨ ∃ n, closing = some n ∧ Header n rs

/-- A block reports what its lines report, and that nothing closes it. -/
theorem finished_told {oWord : Token} {label condition : Option Node} {keyword : Text}
    (close : Text) {ahead : List Token} {rs bs es : List Report}
    (h : Header (.header oWord.value label keyword condition) rs)
    {body : Parsed (List Node × Option (Option Node)) ahead} (hreports : body.reports = bs ++ es)
    (hbody : Series (fun node => Statements short [node]) body.value.1 bs)
    (hend : Ending short EndTold body.value.2 body.rest es) :
    Statements short [(finished oWord label keyword close condition body).value]
      (rs ++ (finished oWord label keyword close condition body).reports) := by
  obtain ⟨gs, cs, hfinished, hg, hc⟩ : ∃ gs cs,
      (finished oWord label keyword close condition body).reports = bs ++ (gs ++ cs) ∧
        OnlyLimits short gs ∧ Closing body.value.2.join cs := by
    obtain ⟨⟨items, result⟩, rest, reports, _⟩ := body
    dsimp only at hreports hend
    subst hreports
    cases hend with
    | halted _ hr =>
      refine ⟨_, _, List.append_assoc bs _ _, onlyLimits_singleton hr, ?_⟩
      exact .missing _ keyword close oWord.line
    | @done closing _ _ hdone =>
      rcases hdone with ⟨rfl, rfl⟩ | ⟨n, rfl, hheader⟩
      · refine ⟨[], _, List.append_assoc bs _ _, onlyLimits_nil short, ?_⟩
        exact .missing _ keyword close oWord.line
      · exact ⟨[], es, rfl, onlyLimits_nil short, .header hheader⟩
  rw [finished_value, hfinished]
  have key := Statements.block keyword h hbody.statements hg hc .nil
  rwa [List.append_nil] at key

/-- What a turn of a block reports, if its statements report what comes with their trees. -/
theorem blockTurn_told {depth : Nat} {label : Option Node} {close : Text} {ahead : List Token}
    (hstatement : ∀ p, statement s (depth + 1) ahead = .ok p →
      Statements short [p.value] p.reports)
    {r : Turn Node (Option Node) ahead} (hr : blockTurn s depth label close ahead = .ok r) :
    r.Told (fun node => Statements short [node]) EndTold := by
  obtain ⟨-, rfl⟩ | ⟨hne, ⟨-, rfl⟩ | ⟨-, p, hp, rfl⟩⟩ := blockTurn_eq_ok hr
  · exact .inl ⟨rfl, rfl⟩
  · exact .inr ⟨_, rfl, closingHeader_told s (depth + 1) ahead⟩
  · exact ⟨hstatement p hp, statement_length_lt s (depth + 1) hne hp⟩

/-! ## Statements -/

mutual

/-- The reports of a statement are those of its tree. -/
theorem statement_told (depth : Nat) (ahead : List Token)
    (hn : EnoughRounds s short ahead) {p : Parsed Node ahead}
    (hp : statement s depth ahead = .ok p) : Statements short [p.value] p.reports := by
  have hline := commands_told s depth hn
  obtain rfl | rfl | rfl | ⟨ha, rfl⟩ | ⟨-, hp⟩ | ⟨hnone, rfl⟩ | rfl := statement_eq_ok s hp
  · exact .single (.stray _ _ (onlyLimits_nil short))
  · exact .single (.lineBreak _)
  · exact .single (.comment _)
  · exact .single (assignment_told s depth ha)
  · exact oStatement_told depth ahead hn hp
  · rw [hnone] at hline
    obtain ⟨rs, gs, hreports, hseries, hg⟩ := hline
    cases hseries
    dsimp only [Parsed.behind]
    rw [hreports]
    exact .single (.stray _ _ hg)
  · exact .single (.commands hline)
termination_by (ahead.length, 1)
decreasing_by exact Prod.Lex.right _ (by omega)

theorem oStatement_told (depth : Nat) (ahead : List Token) (hn : EnoughRounds s short ahead)
    {p : Parsed Node ahead} (hp : oStatement s depth ahead = .ok p) :
    Statements short [p.value] p.reports := by
  obtain ⟨hk, q, hq, rfl⟩ | ⟨-, rfl⟩ | rfl := oStatement_eq_ok hp
  · have hlt := length_keyworded_lt hk
    exact block_told depth (keyworded_told s depth ahead) _ (hn.mono (Nat.le_of_lt hlt)) hq
  · exact .single (flatStatement_told s depth (branched_told s depth ahead) (onlyLimits_nil short)
      (hn.mono (Parsed.length_rest_le _)))
  · have hheader := Header.header (current s ahead).value [] (labelled_told s depth ahead) .missing
    rw [List.append_nil] at hheader
    exact .single (flatStatement_told s depth hheader (onlyLimits_nil short)
      (hn.mono (Parsed.length_rest_le _)))
termination_by (ahead.length, 0)
decreasing_by exact Prod.Lex.left _ _ hlt

theorem block_told (depth : Nat) {oWord : Token} {label : Option Node} {rs : List Report}
    (hlabel : Expression label rs) {keyword : Text} (ahead : List Token)
    (hn : EnoughRounds s short ahead) {p : Parsed Node ahead}
    (hp : block s depth oWord label keyword ahead = .ok p) :
    Statements short [p.value] (rs ++ p.reports) := by
  have hle := (optionalBracket s depth ahead).length_rest_le
  have hheader := Header.header oWord.value keyword hlabel (optionalBracket_told s depth ahead)
  by_cases hd : s.maxDepth ≤ depth
  · rw [block_of_le s hd] at hp
    cases hp
    have hlimit : Report.Limits short ⟨.deepBlock s.maxDepth keyword, oWord.line⟩ :=
      limits_of_nesting rfl rfl _
    have hflat := flatStatement_told s depth hheader (onlyLimits_singleton hlimit) (hn.mono hle)
    rw [List.append_assoc] at hflat
    exact .single hflat
  · obtain ⟨close, hclose, body, hbody, rfl⟩ := block_eq_ok s hd hp
    have hturn : ∀ (ahead' : List Token) (_ : ahead' <:+ (optionalBracket s depth ahead).rest)
        (r : Turn Node (Option Node) ahead'), blockTurn s depth label close ahead' = .ok r →
        r.Told (fun node => Statements short [node]) EndTold := fun ahead' hsuffix r =>
      blockTurn_told s fun p => statement_told (depth + 1) ahead'
        (hn.mono (Nat.le_trans hsuffix.length_le hle))
    obtain ⟨bs, es, hreports, hseries, hend⟩ := turns_told s _ hturn _ _ List.suffix_rfl
      (hn.mono hle).lt_toNat hbody
    have hfinished := finished_told close hheader hreports hseries hend
    rw [List.append_assoc] at hfinished
    exact hfinished
termination_by (ahead.length, 2)
decreasing_by
  exact Prod.Lex.right' _ (Nat.le_trans (List.IsSuffix.length_le ‹_›) (Parsed.length_rest_le _))
    (by omega)

end

/-! ## Programs -/

theorem lineBreaks_told (ahead : List Token) :
    Statements short (lineBreaks ahead).value [] ∧ (lineBreaks ahead).reports = [] := by
  induction ahead with
  | nil => exact ⟨.nil, rfl⟩
  | cons t rest ih =>
    unfold lineBreaks
    split
    · exact ⟨.simple (.lineBreak t.value) ih.1, ih.2⟩
    · exact ⟨.nil, rfl⟩

theorem restOfProgram_reports (ahead : List Token) : (restOfProgram ahead).reports = [] := by
  induction ahead with
  | nil => rfl
  | cons t rest ih => exact ih

/-- What a loop that was cut short left behind is kept, and not reported once more. -/
theorem leftovers_told {nodes : List Node} {rs : List Report} {r : Report} (hr : r.Limits short)
    (h : Statements short nodes rs) (ahead : List Token) :
    Told.Program short (nodes ++ (leftovers s ahead).value)
      (rs ++ [r] ++ (leftovers s ahead).reports) := by
  obtain ⟨hbreaks, hnone⟩ := @lineBreaks_told short ahead
  have hnodes := h.append hbreaks
  rw [List.append_nil] at hnodes
  unfold leftovers
  dsimp only
  split
  · rw [hnone, List.append_nil]
    exact .halted hnodes hr
  · dsimp only [Parsed.behind, Parsed.map, remainder]
    rw [hnone, restOfProgram_reports, List.append_nil, List.append_nil, ← List.append_assoc]
    exact .cutOff _ _ hnodes hr

theorem programTurn_told {depth : Nat} {ahead : List Token}
    (hn : EnoughRounds s short ahead) {r : Turn Node Unit ahead}
    (hr : programTurn s depth ahead = .ok r) :
    r.Told (fun node => Statements short [node])
      fun _ rest rs => rs = [] ∧ (current s rest).kind = .endOfFile := by
  obtain ⟨hend, rfl⟩ | ⟨hne, p, hp, rfl⟩ := programTurn_eq_ok hr
  · exact ⟨rfl, hend⟩
  · exact ⟨statement_told s depth ahead hn hp, statement_length_lt s depth hne hp⟩

/-- The reports of a program are those of its tree. -/
theorem program_told (depth : Nat) {ahead : List Token} (hne : ∀ t ∈ ahead, t.kind ≠ .endOfFile)
    (hn : EnoughRounds s short ahead) {p : Parsed Program ahead}
    (hp : program s depth ahead = .ok p) :
    ∃ nodes : List Node, p.value.statements = nodes.map some ∧
      Told.Program short nodes p.reports := by
  rw [program_eq_loop] at hp
  obtain ⟨body, hbody, rfl⟩ := map_eq_ok.mp hp
  have hturn : ∀ (ahead' : List Token) (_ : ahead' <:+ ahead) (r : Turn Node Unit ahead'),
      programTurn s depth ahead' = .ok r → r.Told (fun node => Statements short [node])
        fun _ rest rs => rs = [] ∧ (current s rest).kind = .endOfFile := fun ahead' hsuffix r =>
    programTurn_told s (hn.mono hsuffix.length_le)
  obtain ⟨rs, es, hreports, hseries, hend⟩ := turns_told s _ hturn _ _ List.suffix_rfl hn.lt_toNat
    hbody
  refine ⟨_, rfl, ?_⟩
  dsimp only [Parsed.behind, Parsed.map]
  rw [hreports]
  have hsuffix := body.suffix
  generalize body.rest = rest at hend hsuffix ⊢
  generalize body.value.2 = result at hend
  cases hend with
  | halted _ hr => exact leftovers_told s hr hseries.statements rest
  | done h =>
    obtain ⟨rfl, hstop⟩ := h
    have hnil := eq_nil_of_current s (fun t ht => hne t (hsuffix.subset ht)) hstop
    have hleftovers : leftovers s rest = Parsed.pure [] rest := by
      subst hnil
      rfl
    rw [hleftovers]
    simp only [Parsed.pure, List.append_nil]
    exact .whole hseries.statements

end Parse

end Gcode
