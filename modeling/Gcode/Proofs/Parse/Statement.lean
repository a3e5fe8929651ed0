import Gcode.Parse.Session
import Gcode.Proofs.Parse.Expression
import Gcode.Proofs.Parse.Loop

/-!
# What a program is read from

A parse of any tokens, with any limits, succeeds, and the statements of the program stand for all
the tokens, one behind the other. The search for the line that closes a block takes no token.

## Main statements

* `Parse.blockTurn_eq_ok`, `Parse.statement_eq_ok`, `Parse.programTurn_eq_ok` — what a turn in a
  block, a statement and a turn of the program may have been.
* `Parse.statement_reads` — a statement is read, and stands for the tokens it took.
* `Parse.statement_length_lt` — there is such a token.
* `Parse.program_reads` — a program is read, and stands for all tokens.
* `Parse.outcome_reads` — the same of the tokens before an end mark.
* `exists_program_eq` — a parse of any tokens succeeds.
-/

namespace Gcode

namespace Parse

open Reading
open Token (texts)

variable (s : Setting) {cut : Prop}

/-- A token other than the end mark is read, and what is behind it is left. -/
theorem eq_cons_advance {ahead : List Token} (h : (advance s ahead).value.kind ≠ .endOfFile) :
    ahead = (advance s ahead).value :: (advance s ahead).rest := by
  cases ahead with
  | nil => exact absurd rfl h
  | cons t rest => rfl

/-! ## Lines of commands -/

/-- A token that ends no line is taken, and the rest of its line with it. -/
theorem unknown_takes {t : Token} (ht : t.kind ≠ .endOfLine) (rest : List Token) :
    ∃ used line, (unknown s (t :: rest)).value = .unknown (texts used) line ∧ used ≠ [] ∧
      t :: rest = used ++ (unknown s (t :: rest)).rest ∧ OnLine used ∧
      AtLineEnd (unknown s (t :: rest)).rest := by
  obtain ⟨htakes, hend⟩ := restOfLine_takes rest
  obtain ⟨used, hused, hvalue, hline⟩ := htakes.cons ht
  refine ⟨used, t.line, congrArg (Node.unknown · t.line) hvalue, ?_, hused, hline, hend⟩
  rintro rfl
  have hlength := congrArg List.length hused
  have hle := (restOfLine rest).suffix.length_le
  simp only [Parsed.behindToken, Parsed.map, List.nil_append, List.length_cons] at hlength
  omega

theorem unknown_simple {t : Token} (ht : t.kind ≠ .endOfLine) (rest : List Token) :
    Simple cut (unknown s (t :: rest)).value (t :: rest) (unknown s (t :: rest)).rest := by
  obtain ⟨used, line, hvalue, hne, hused, hline, hend⟩ := unknown_takes s ht rest
  rw [hvalue]
  exact .stray line hne hused hline hend

theorem wordWithValue_reads (depth : Nat) {t : Token} (ht : t.kind = .word) (rest : List Token)
    (hc : Guarded (wordWithValue s depth (t :: rest)).reports → cut) :
    Expression cut (some (wordWithValue s depth (t :: rest)).value) (t :: rest)
      (wordWithValue s depth (t :: rest)).rest := by
  unfold wordWithValue at hc ⊢
  dsimp only [advance, Parsed.behind, Parsed.map, List.tail_cons] at hc ⊢
  by_cases hv : startsValue (current s rest) = true
  · rw [if_pos hv] at hc ⊢
    exact .word ht (value_reads s depth rest hc)
  · rw [if_neg hv]
    exact .word ht (.missing rest)

/-- A command stands for the tokens it took. -/
theorem command_reads (depth : Nat) {ahead : List Token}
    (hne : (current s ahead).kind ≠ .endOfFile) (hline : (current s ahead).kind ≠ .endOfLine)
    (hc : Guarded (command s depth ahead).reports → cut) :
    Command cut (command s depth ahead).value ahead (command s depth ahead).rest := by
  obtain ⟨rest, hrest⟩ := eq_cons_of_current s rfl hne
  generalize current s ahead = t at hrest hline
  subst hrest
  unfold command at hc ⊢
  revert hc
  split
  case h_1 hk =>
    refine fun hc => .expression (wordWithValue_reads s depth hk rest hc) ?_
    exact Nat.lt_succ_of_le (@Parsed.length_rest_le _ rest _)
  case h_2 hk =>
    refine fun hc => .expression (bracketed_reads s depth hk hc) ?_
    exact Nat.lt_succ_of_le (bracketed_suffix s depth hk rest).length_le
  case h_3 hk =>
    refine fun hc => .expression (functionCall_reads s depth hk rest hc) ?_
    exact Nat.lt_succ_of_le (@Parsed.length_rest_le _ rest _)
  case h_4 =>
    intro _
    obtain ⟨used, line, hvalue, hne, hused, hused', hend⟩ := unknown_takes s hline rest
    rw [hvalue]
    exact .stray line hne hused hused' hend

theorem commandTurn_reads (depth : Nat) (ahead : List Token) :
    (commandTurn s depth ahead).Reads cut (Command cut) fun _ ahead rest => ahead = rest := by
  unfold commandTurn
  by_cases hend : endsCommands s ahead = true
  · rw [if_pos hend]
    exact fun _ => rfl
  · rw [if_neg hend]
    have hne : (current s ahead).kind ≠ .endOfFile := by
      intro hk
      exact hend (by simp [endsCommands, hk])
    have hline : (current s ahead).kind ≠ .endOfLine := by
      intro hk
      exact hend (by simp [endsCommands, hk])
    by_cases hk : (current s ahead).kind = .comment
    · rw [if_pos hk]
      obtain ⟨t, rest, rfl, ht⟩ := eq_cons_of_kind s hk (by decide)
      exact fun _ => .comment rest ht
    · rw [if_neg hk]
      exact command_reads s depth hne hline

/-- A line of commands stands for the tokens it took. -/
theorem commands_reads (depth : Nat) (ahead : List Token)
    (hc : Guarded (commands s depth ahead).reports → cut) :
    Series (Command cut) (commands s depth ahead).value ahead (commands s depth ahead).rest := by
  obtain ⟨behind, hitems, hend⟩ :=
    steadyLoop_reads s "command line" (commandTurn_reads s depth) hc
  unfold commands
  dsimp only [Parsed.map]
  generalize (steadyLoop s _ ahead (commandTurn s depth)).rest = rest at hend ⊢
  generalize (steadyLoop s _ ahead (commandTurn s depth)).value.2 = result at hend
  cases hend with
  | done h =>
    subst h
    exact hitems
  | halted => exact hitems

/-! ## Assignments and headers -/

theorem assignment_reads (depth : Nat) {ahead : List Token}
    (h : startsAssignment s ahead = true)
    (hc : Guarded (assignment s depth ahead).reports → cut) :
    Simple cut (assignment s depth ahead).value ahead (assignment s depth ahead).rest := by
  rw [startsAssignment, Bool.and_eq_true, decide_eq_true_eq, decide_eq_true_eq] at h
  obtain ⟨t, rest, rfl, ht⟩ := eq_cons_of_kind s h.1 (by decide)
  obtain ⟨u, rest, rfl, hu⟩ := eq_cons_of_kind s h.2 (by decide)
  unfold assignment at hc ⊢
  dsimp only [advance, Parsed.behind, Parsed.map, List.tail_cons] at hc ⊢
  rw [expect_cons_of_eq s hu] at hc ⊢
  exact .assignment ht hu (value_reads s depth rest hc)

theorem flatStatement_reads (depth : Nat) {header : Node} {ahead behind : List Token}
    (h : Header cut header ahead behind)
    (hc : Guarded (flatStatement s depth header behind).reports → cut) :
    Simple cut (flatStatement s depth header behind).value ahead
      (flatStatement s depth header behind).rest :=
  .flat h (commands_reads s depth behind hc)

/-- The condition of a branch, and that of anything else, which has none. -/
theorem branchCondition_reads (depth : Nat) (keyword : Text) (ahead : List Token)
    (hc : Guarded (if keyword = "ELSEIF" then optionalBracket s depth ahead
      else Parsed.pure none ahead).reports → cut) :
    Expression cut (if keyword = "ELSEIF" then optionalBracket s depth ahead
        else Parsed.pure none ahead).value ahead
      (if keyword = "ELSEIF" then optionalBracket s depth ahead
        else Parsed.pure none ahead).rest := by
  by_cases hk : keyword = "ELSEIF"
  · rw [if_pos hk] at hc ⊢
    exact optionalBracket_reads s depth ahead hc
  · rw [if_neg hk]
    exact .missing ahead

/-- The condition behind a keyword that opens no block: only a branch may have one. -/
def branchCondition (depth : Nat) (keyword : Text) (ahead : List Token) :
    Parsed (Option Node) ahead :=
  if keyword = "ELSEIF" then optionalBracket s depth ahead else Parsed.pure none ahead

theorem isOWord_kind {t : Token} (h : isOWord t = true) : t.kind = .word := by
  rw [isOWord, Bool.and_eq_true, decide_eq_true_eq] at h
  exact h.1

/-- A line that closes a block here is a header. -/
theorem closingHeader_reads (depth : Nat) {label : Option Node} {close : Text}
    {ahead : List Token} (h : closesHere s depth label close ahead = .ok true)
    (hc : Guarded (closingHeader s depth ahead).reports → cut) :
    Header cut (closingHeader s depth ahead).value ahead (closingHeader s depth ahead).rest := by
  unfold closesHere at h
  by_cases ho : isOWord (current s ahead) = true
  · rw [if_pos ho] at h
    obtain ⟨t, rest, rfl, -⟩ := eq_cons_of_kind s (isOWord_kind ho) (by decide)
    dsimp only [advance, List.tail_cons] at h
    split at h
    case isFalse => cases h
    case isTrue hk =>
      rw [Bool.and_eq_true, decide_eq_true_eq] at hk
      unfold closingHeader at hc ⊢
      dsimp only [advance, Parsed.behind, Parsed.map, List.tail_cons, List.nil_append] at hc ⊢
      simp only [guarded_append] at hc
      have hlabel := value_reads s depth rest fun hg => hc (.inl (.inl hg))
      generalize (value s depth rest).rest = behind at hk hlabel hc ⊢
      obtain ⟨u, behind, rfl, hu⟩ := eq_cons_of_kind s hk.1 (by decide)
      exact .keyed ho hlabel hu (optionalBracket_reads s depth behind fun hg => hc (.inr hg))
  · rw [if_neg ho] at h
    cases h

theorem labelsMatch_eq_ok {a b : Option Node} (ha : ∃ text, Node.label a = .ok text)
    (hb : ∃ text, Node.label b = .ok text) : ∃ r, Node.labelsMatch a b = .ok r := by
  obtain ⟨_, ha⟩ := ha
  obtain ⟨_, hb⟩ := hb
  exact ⟨_, by rw [Node.labelsMatch, ha, hb]; rfl⟩

/-- Looking for the end of a block succeeds. -/
theorem closesHere_eq_ok (depth : Nat) {label : Option Node}
    (hlabel : ∃ text, Node.label label = .ok text) (close : Text) (ahead : List Token) :
    ∃ r, closesHere s depth label close ahead = .ok r := by
  unfold closesHere
  split
  · dsimp only
    split
    · refine labelsMatch_eq_ok hlabel ?_
      exact (@value_reads s True depth _ fun _ => trivial).label_eq_ok
    · exact ⟨_, rfl⟩
  · exact ⟨_, rfl⟩

/-! ## Blocks -/

/-- One turn of reading what a block holds, up to the line that closes it. -/
def blockTurn (depth : Nat) (label : Option Node) (close : Text) (ahead : List Token) :
    Except (Halt ParseError) (Turn Node (Option Node) ahead) :=
  if (current s ahead).kind = .endOfFile then .ok (.done (Parsed.pure none ahead))
  else
    match closesHere s (depth + 1) label close ahead with
    | .error refusal => .error ⟨.label refusal, ahead, depth + 1, []⟩
    | .ok true => .ok (.done ((closingHeader s (depth + 1) ahead).map some))
    | .ok false => (statement s (depth + 1) ahead).map .item

section BlockTurn

variable {s} {depth : Nat} {label : Option Node} {close : Text} {ahead : List Token}

theorem blockTurn_ended (hend : (current s ahead).kind = .endOfFile) :
    blockTurn s depth label close ahead = .ok (.done (Parsed.pure none ahead)) := by
  rw [blockTurn, if_pos hend]

/-- A line that closes the block ends the loop. -/
theorem blockTurn_closed (hne : (current s ahead).kind ≠ .endOfFile)
    (h : closesHere s (depth + 1) label close ahead = .ok true) :
    blockTurn s depth label close ahead =
      .ok (.done ((closingHeader s (depth + 1) ahead).map some)) := by
  rw [blockTurn, if_neg hne, h]

/-- Any other statement belongs to the block. -/
theorem blockTurn_open (hne : (current s ahead).kind ≠ .endOfFile)
    (h : closesHere s (depth + 1) label close ahead = .ok false) {p : Parsed Node ahead}
    (hp : statement s (depth + 1) ahead = .ok p) :
    blockTurn s depth label close ahead = .ok (.item p) := by
  rw [blockTurn, if_neg hne, h]
  dsimp only
  rw [hp]
  rfl

/-- A turn of a block came to the end of the tokens, or to the line that closes the block, or to a
statement. -/
theorem blockTurn_eq_ok {r : Turn Node (Option Node) ahead}
    (hr : blockTurn s depth label close ahead = .ok r) :
    ((current s ahead).kind = .endOfFile ∧ r = .done (Parsed.pure none ahead)) ∨
      (current s ahead).kind ≠ .endOfFile ∧
        ((closesHere s (depth + 1) label close ahead = .ok true ∧
            r = .done ((closingHeader s (depth + 1) ahead).map some)) ∨
          (closesHere s (depth + 1) label close ahead = .ok false ∧
            ∃ p, statement s (depth + 1) ahead = .ok p ∧ r = .item p)) := by
  by_cases hend : (current s ahead).kind = .endOfFile
  · rw [blockTurn_ended hend] at hr
    exact .inl ⟨hend, (Except.ok.inj hr).symm⟩
  refine .inr ⟨hend, ?_⟩
  cases hcloses : closesHere s (depth + 1) label close ahead with
  | error refusal =>
    rw [blockTurn, if_neg hend, hcloses] at hr
    cases hr
  | ok closes =>
    cases closes with
    | true =>
      rw [blockTurn_closed hend hcloses] at hr
      exact .inl ⟨rfl, (Except.ok.inj hr).symm⟩
    | false =>
      rw [blockTurn, if_neg hend, hcloses] at hr
      obtain ⟨p, hp, rfl⟩ := map_eq_ok.mp hr
      exact .inr ⟨rfl, p, hp, rfl⟩

end BlockTurn

/-- A block from what its loop came to; it is reported if nothing closes it. -/
def finished (oWord : Token) (label : Option Node) (keyword close : Text)
    (condition : Option Node) {ahead : List Token}
    (body : Parsed (List Node × Option (Option Node)) ahead) : Parsed Node ahead :=
  let closing := body.value.2.join
  let node := Node.block keyword (some (.header oWord.value label keyword condition))
    (body.value.1.map some) closing
  if closing.isSome then body.map fun _ => node
  else
    let start := oWord.value ++ Node.describedLabel label
    body.behind (Parsed.reporting node ⟨.unclosedBlock start keyword close, oWord.line⟩ body.rest)

/-- A block that does not nest too deep is read in a loop. -/
theorem block_eq_loop {depth : Nat} (hd : ¬ s.maxDepth ≤ depth) (oWord : Token)
    (label : Option Node) {keyword close : Text} (hclose : Keyword.closing? keyword = some close)
    (ahead : List Token) : block s depth oWord label keyword ahead =
      (optionalBracket s depth ahead).tryBehind
        ((loop s (keyword ++ " block") (optionalBracket s depth ahead).rest
          fun ahead _ => blockTurn s depth label close ahead).map
            (finished oWord label keyword close (optionalBracket s depth ahead).value)) := by
  rw [block]
  dsimp only
  rw [if_neg hd, hclose]
  rfl

/-- A block that nests too deep is its first line alone, and that is reported. -/
theorem block_of_le {depth : Nat} (hd : s.maxDepth ≤ depth) (oWord : Token) (label : Option Node)
    (keyword : Text) (ahead : List Token) : block s depth oWord label keyword ahead =
      .ok ((optionalBracket s depth ahead).behind ((flatStatement s depth
        (.header oWord.value label keyword (optionalBracket s depth ahead).value)
        (optionalBracket s depth ahead).rest).withReport
          ⟨.deepBlock s.maxDepth keyword, oWord.line⟩)) := by
  rw [block]
  dsimp only
  rw [if_pos hd]

/-- What is read as a block that does not nest too deep has a keyword that some keyword closes, and
its loop came to an end. -/
theorem block_eq_ok {depth : Nat} (hd : ¬ s.maxDepth ≤ depth) {oWord : Token}
    {label : Option Node} {keyword : Text} {ahead : List Token} {p : Parsed Node ahead}
    (hp : block s depth oWord label keyword ahead = .ok p) :
    ∃ close, Keyword.closing? keyword = some close ∧ ∃ body,
      loop s (keyword ++ " block") (optionalBracket s depth ahead).rest
        (fun ahead _ => blockTurn s depth label close ahead) = .ok body ∧
      p = (optionalBracket s depth ahead).behind
        (finished oWord label keyword close (optionalBracket s depth ahead).value body) := by
  cases hclose : Keyword.closing? keyword with
  | none =>
    rw [block] at hp
    dsimp only at hp
    rw [if_neg hd, hclose] at hp
    cases hp
  | some close =>
    rw [block_eq_loop s hd oWord label hclose] at hp
    obtain ⟨q, hq, rfl⟩ := Parsed.tryBehind_eq_ok hp
    obtain ⟨body, hbody, rfl⟩ := map_eq_ok.mp hq
    exact ⟨close, rfl, body, hbody, rfl⟩

/-- Whether something closes a block or not, it is made of what its loop came to. -/
theorem finished_value (oWord : Token) (label : Option Node) (keyword close : Text)
    (condition : Option Node) {ahead : List Token}
    (body : Parsed (List Node × Option (Option Node)) ahead) :
    (finished oWord label keyword close condition body).value =
      .block keyword (some (.header oWord.value label keyword condition))
        (body.value.1.map some) body.value.2.join := by
  unfold finished
  dsimp only
  split <;> rfl

/-- What a loop over the statements of a block came to is a block behind its header. -/
theorem finished_reads {oWord : Token} {label condition : Option Node} {keyword : Text}
    (close : Text) {ahead inside : List Token}
    (h : Header cut (.header oWord.value label keyword condition) ahead inside)
    {body : Parsed (List Node × Option (Option Node)) inside}
    (hbody : (Guarded body.reports → cut) → ∃ last,
      Series (fun node => Statements cut [node]) body.value.1 inside last ∧
        Ending cut (Closing cut) body.value.2 last body.rest)
    (hc : Guarded (finished oWord label keyword close condition body).reports → cut) :
    Statements cut [(finished oWord label keyword close condition body).value] ahead
      (finished oWord label keyword close condition body).rest := by
  have hreports : Guarded body.reports →
      Guarded (finished oWord label keyword close condition body).reports := by
    intro hg
    unfold finished
    dsimp only
    split
    · exact hg
    · exact (guarded_append _ _).mpr (.inl hg)
  have hrest : (finished oWord label keyword close condition body).rest = body.rest := by
    unfold finished
    dsimp only
    split <;> rfl
  obtain ⟨last, hitems, hend⟩ := hbody fun hg => hc (hreports hg)
  rw [finished_value, hrest]
  refine .block h hitems.statements ?_ (.nil _)
  generalize body.value.2 = result at hend ⊢
  generalize body.rest = rest at hend ⊢
  cases hend with
  | done hclosing => exact hclosing
  | halted => exact .missing last

/-! ## Statements -/

/-- A statement that was read is a stray token, a line break, a comment, an assignment, an o-word
line or a line of commands. A line that has no command begins with a stray token, too. -/
theorem statement_eq_ok {depth : Nat} {ahead : List Token} {p : Parsed Node ahead}
    (hp : statement s depth ahead = .ok p) :
    p = unknown s ahead ∨ p = lineBreak s ahead ∨ p = comment s ahead ∨
      (startsAssignment s ahead = true ∧ p = assignment s depth ahead) ∨
      (isOWord (current s ahead) = true ∧ oStatement s depth ahead = .ok p) ∨
      ((commands s depth ahead).value = [] ∧
        p = (commands s depth ahead).behind (unknown s (commands s depth ahead).rest)) ∨
      p = (commands s depth ahead).map fun nodes => .commandLine (nodes.map some) := by
  rw [statement] at hp
  dsimp only at hp
  split at hp
  · exact .inl (Except.ok.inj hp).symm
  refine .inr ?_
  split at hp
  · exact .inl (Except.ok.inj hp).symm
  refine .inr ?_
  split at hp
  · exact .inl (Except.ok.inj hp).symm
  refine .inr ?_
  split at hp
  case isTrue ha => exact .inl ⟨ha, (Except.ok.inj hp).symm⟩
  refine .inr ?_
  split at hp
  case isTrue ho => exact .inl ⟨ho, hp⟩
  refine .inr ?_
  split at hp
  case isTrue hempty => exact .inl ⟨List.isEmpty_iff.mp hempty, (Except.ok.inj hp).symm⟩
  exact .inr (Except.ok.inj hp).symm

mutual

/-- A statement is read, and stands for the tokens it took. -/
theorem statement_reads (depth : Nat) (ahead : List Token)
    (hne : (current s ahead).kind ≠ .endOfFile) :
    ∃ p, statement s depth ahead = .ok p ∧
      ((Guarded p.reports → cut) → Statements cut [p.value] ahead p.rest) := by
  match ahead with
  | [] => exact absurd rfl hne
  | t :: rest =>
  rw [statement]
  dsimp only
  split
  case isTrue hk =>
    have hline : t.kind ≠ .endOfLine := by
      intro hend
      simp [hend] at hk
    exact ⟨_, rfl, fun _ => .single (unknown_simple s hline rest)⟩
  case isFalse hplain =>
  split
  case isTrue hk => exact ⟨_, rfl, fun _ => .single (.lineBreak rest hk)⟩
  case isFalse hend =>
  split
  case isTrue hk => exact ⟨_, rfl, fun _ => .single (.comment rest hk)⟩
  split
  case isTrue ha => exact ⟨_, rfl, fun hc => .single (assignment_reads s depth ha hc)⟩
  split
  case isTrue ho => exact oStatement_reads depth ho rest
  have hline := @commands_reads s cut depth (t :: rest)
  split
  case isTrue hempty =>
    refine ⟨_, rfl, fun hc => ?_⟩
    dsimp only [Parsed.behind] at hc ⊢
    rw [guarded_append] at hc
    replace hline := hline fun hg => hc (.inl hg)
    rw [List.isEmpty_iff.mp hempty] at hline
    generalize (commands s depth (t :: rest)).rest = behind at hline ⊢
    cases hline
    exact .single (unknown_simple s hend rest)
  case isFalse hempty =>
    refine ⟨_, rfl, fun hc => .single (.commands ?_ ?_ (hline hc))⟩
    · intro hnil
      exact hempty (by rw [hnil]; rfl)
    · intro u hu hunknown
      obtain rfl : t = u := Option.some.inj hu
      exact hplain (by simp [hunknown])
termination_by (ahead.length, 1)
decreasing_by exact Prod.Lex.right _ (by omega)

/-- An o-word line is read, and stands for the tokens it took. -/
theorem oStatement_reads (depth : Nat) {t : Token} (ht : isOWord t = true) (rest : List Token) :
    ∃ p, oStatement s depth (t :: rest) = .ok p ∧
      ((Guarded p.reports → cut) → Statements cut [p.value] (t :: rest) p.rest) := by
  have hlabel := @value_reads s cut depth rest
  have hok := (@value_reads s True depth rest fun _ => trivial).label_eq_ok
  rw [oStatement]
  dsimp only
  split
  case isTrue hk =>
    have hflow : (advance s (value s depth rest).rest).value.kind = .flow := hk
    have hcons : (value s depth rest).rest = _ := eq_cons_advance s (by rw [hflow]; decide)
    split
    case isTrue hclose =>
      obtain ⟨p, hp, hreads⟩ := block_reads depth t _
        (advance s (value s depth rest).rest).rest hok hclose
      refine ⟨_, Parsed.tryBehind_ok _ hp, fun hc => ?_⟩
      dsimp only [advance, Parsed.behind, List.tail_cons] at hc ⊢
      simp only [guarded_append] at hc
      replace hlabel := hlabel fun hg => hc (.inl (.inl (.inr hg)))
      rw [hcons] at hlabel
      exact hreads rest ht hlabel hk fun hg => hc (.inr hg)
    case isFalse =>
      refine ⟨_, rfl, fun hc => ?_⟩
      dsimp only [advance, Parsed.behind, List.tail_cons] at hc ⊢
      simp only [guarded_append] at hc
      replace hlabel := hlabel fun hg => hc (.inl (.inl (.inl (.inr hg))))
      rw [hcons] at hlabel
      have hcondition := @branchCondition_reads s cut depth
        (Text.upper (advance s (value s depth rest).rest).value.value)
        (advance s (value s depth rest).rest).rest fun hg => hc (.inl (.inr hg))
      exact .single (flatStatement_reads s depth (.keyed ht hlabel hflow hcondition)
        fun hg => hc (.inr hg))
  case isFalse =>
    refine ⟨_, rfl, fun hc => ?_⟩
    dsimp only [advance, Parsed.behind, List.tail_cons] at hc ⊢
    simp only [guarded_append] at hc
    replace hlabel := hlabel fun hg => hc (.inl (.inr hg))
    exact .single (flatStatement_reads s depth (.bare ht hlabel) fun hg => hc (.inr hg))
termination_by (rest.length + 1, 0)
decreasing_by
  refine Prod.Lex.left _ _ (Nat.lt_succ_of_le ?_)
  exact Nat.le_trans (Parsed.length_rest_le _) (Parsed.length_rest_le _)

/-- A block is read, and stands for the tokens it took. -/
theorem block_reads (depth : Nat) (oWord : Token) {label : Option Node} (u : Token)
    (ahead : List Token) (hlabel : ∃ text, Node.label label = .ok text)
    (hk : (Keyword.closing? (Text.upper u.value)).isSome = true) :
    ∃ p, block s depth oWord label (Text.upper u.value) ahead = .ok p ∧
      ∀ before, isOWord oWord = true → Expression cut label before (u :: ahead) →
        u.kind = .flow → (Guarded p.reports → cut) →
        Statements cut [p.value] (oWord :: before) p.rest := by
  have hcondition := @optionalBracket_reads s cut depth ahead
  by_cases hd : s.maxDepth ≤ depth
  · rw [block_of_le s hd]
    refine ⟨_, rfl, fun before ho hl hu hc => ?_⟩
    dsimp only [Parsed.behind, Parsed.withReport] at hc ⊢
    rw [guarded_append, guarded_cons] at hc
    have hheader := Header.keyed ho hl hu (hcondition fun hg => hc (.inl hg))
    exact .single (flatStatement_reads s depth hheader fun hg => hc (.inr (.inr hg)))
  · obtain ⟨close, hclose⟩ := Option.isSome_iff_exists.mp hk
    rw [block_eq_loop s hd oWord label hclose]
    have hturn : ∀ (ahead' : List Token) (_ : ahead' <:+ (optionalBracket s depth ahead).rest),
        ∃ r, blockTurn s depth label close ahead' = .ok r ∧
          r.Reads cut (fun node => Statements cut [node]) (Closing cut) := by
      intro ahead' _
      by_cases hend : (current s ahead').kind = .endOfFile
      · exact ⟨_, blockTurn_ended hend, fun _ => .missing ahead'⟩
      · obtain ⟨r, hr⟩ := closesHere_eq_ok s (depth + 1) hlabel close ahead'
        cases r with
        | true =>
          refine ⟨_, blockTurn_closed hend hr, fun hc => .header ?_⟩
          exact closingHeader_reads s (depth + 1) hr hc
        | false =>
          obtain ⟨p, hp, hreads⟩ := statement_reads (depth + 1) ahead' hend
          exact ⟨_, blockTurn_open hend hr hp, hreads⟩
    obtain ⟨p, hp, hreads⟩ := loop_reads s (Text.upper u.value ++ " block") hturn
    rw [hp]
    refine ⟨_, Parsed.tryBehind_ok _ rfl, fun before ho hl hu hc => ?_⟩
    dsimp only [Parsed.behind] at hc ⊢
    rw [guarded_append] at hc
    have hheader := Header.keyed ho hl hu (hcondition fun hg => hc (.inl hg))
    exact finished_reads close hheader hreads fun hg => hc (.inr hg)
termination_by (ahead.length, 2)
decreasing_by
  exact Prod.Lex.right' _ (Nat.le_trans (List.IsSuffix.length_le ‹_›) (Parsed.length_rest_le _))
    (by omega)

end

/-- Before the end mark, every statement takes a token. -/
theorem statement_length_lt (depth : Nat) {ahead : List Token}
    (hne : (current s ahead).kind ≠ .endOfFile) {p : Parsed Node ahead}
    (hp : statement s depth ahead = .ok p) : p.rest.length < ahead.length := by
  obtain ⟨q, hq, hreads⟩ := @statement_reads s True depth ahead hne
  obtain rfl : p = q := Except.ok.inj (hp.symm.trans hq)
  exact (hreads fun _ => trivial).length_lt (List.cons_ne_nil _ _)

/-! ## Programs -/

theorem lineBreaks_reads (ahead : List Token) :
    Statements cut (lineBreaks ahead).value ahead (lineBreaks ahead).rest := by
  induction ahead with
  | nil => exact .nil []
  | cons t rest ih =>
    unfold lineBreaks
    by_cases hk : t.kind = .endOfLine
    · rw [if_pos hk]
      exact .simple (.lineBreak rest hk) ih
    · rw [if_neg hk]
      exact .nil (t :: rest)

/-- All line breaks at hand are taken. -/
theorem lineBreaks_stops (ahead : List Token) :
    ∀ t ∈ (lineBreaks ahead).rest.head?, t.kind ≠ .endOfLine := by
  induction ahead with
  | nil => simp [lineBreaks, Parsed.pure]
  | cons t rest ih =>
    unfold lineBreaks
    by_cases hk : t.kind = .endOfLine
    · rw [if_pos hk]
      exact ih
    · rw [if_neg hk]
      intro u hu
      obtain rfl : t = u := Option.some.inj hu
      exact hk

theorem eq_nil_of_current {ahead : List Token} (hne : ∀ t ∈ ahead, t.kind ≠ .endOfFile)
    (h : (current s ahead).kind = .endOfFile) : ahead = [] := by
  cases ahead with
  | nil => rfl
  | cons t rest => exact absurd h (hne t (by simp))

/-- What a loop left behind is read to the end. -/
theorem leftovers_reads {nodes : List Node} {start ahead : List Token}
    (hne : ∀ t ∈ ahead, t.kind ≠ .endOfFile) (hc : ahead ≠ [] → cut)
    (h : Statements cut nodes start ahead) :
    Reading.Program cut (nodes ++ (leftovers s ahead).value) start := by
  have hbreaks := h.append (lineBreaks_reads ahead)
  unfold leftovers
  dsimp only
  split
  case isTrue hk =>
    have hnil := eq_nil_of_current s (fun t ht => hne t ((lineBreaks ahead).suffix.subset ht)) hk
    rw [hnil] at hbreaks
    exact .whole hbreaks
  case isFalse hk =>
    have hcut : cut := by
      apply hc
      rintro rfl
      exact hk rfl
    have hrest : ¬AtLineEnd (lineBreaks ahead).rest := by
      intro hend
      cases hr : (lineBreaks ahead).rest with
      | nil =>
        rw [hr] at hk
        exact hk rfl
      | cons t rest =>
        rw [hr] at hend
        exact lineBreaks_stops ahead t (by rw [hr]; rfl) (hend t rfl)
    have hvalue := (restOfProgram_spec (lineBreaks ahead).rest).1
    dsimp only [Parsed.behind, Parsed.map, remainder]
    rw [hvalue, ← List.append_assoc]
    exact .cutOff _ hcut hrest hbreaks

/-- One turn of reading a program. -/
def programTurn (depth : Nat) (ahead : List Token) :
    Except (Halt ParseError) (Turn Node Unit ahead) :=
  if (current s ahead).kind = .endOfFile then .ok (.done (Parsed.pure () ahead))
  else (statement s depth ahead).map .item

section ProgramTurn

variable {s} {depth : Nat} {ahead : List Token}

theorem programTurn_ended (hend : (current s ahead).kind = .endOfFile) :
    programTurn s depth ahead = .ok (.done (Parsed.pure () ahead)) := by
  rw [programTurn, if_pos hend]

theorem programTurn_item (hne : (current s ahead).kind ≠ .endOfFile) {p : Parsed Node ahead}
    (hp : statement s depth ahead = .ok p) : programTurn s depth ahead = .ok (.item p) := by
  rw [programTurn, if_neg hne, hp]
  rfl

/-- A turn of a program came to the end of the tokens, or to a statement. -/
theorem programTurn_eq_ok {r : Turn Node Unit ahead} (hr : programTurn s depth ahead = .ok r) :
    ((current s ahead).kind = .endOfFile ∧ r = .done (Parsed.pure () ahead)) ∨
      (current s ahead).kind ≠ .endOfFile ∧
        ∃ p, statement s depth ahead = .ok p ∧ r = .item p := by
  unfold programTurn at hr
  split at hr
  case isTrue hend => exact .inl ⟨hend, (Except.ok.inj hr).symm⟩
  case isFalse hne =>
    obtain ⟨p, hp, rfl⟩ := map_eq_ok.mp hr
    exact .inr ⟨hne, p, hp, rfl⟩

end ProgramTurn

theorem program_eq_loop (depth : Nat) (ahead : List Token) :
    program s depth ahead =
      (loop s "program" ahead fun ahead _ => programTurn s depth ahead).map fun parsed =>
        (parsed.behind (leftovers s parsed.rest)).map fun more =>
          ⟨(parsed.value.1 ++ more).map some⟩ := rfl

/-- A program is read, and its statements stand for all tokens. -/
theorem program_reads (depth : Nat) {ahead : List Token}
    (hne : ∀ t ∈ ahead, t.kind ≠ .endOfFile) :
    ∃ p, program s depth ahead = .ok p ∧
      ((Guarded p.reports → cut) → ∃ nodes : List Node, p.value.statements = nodes.map some ∧
        Reading.Program cut nodes ahead) := by
  have hturn : ∀ (ahead' : List Token) (_ : ahead' <:+ ahead),
      ∃ r, programTurn s depth ahead' = .ok r ∧
        r.Reads cut (fun node => Statements cut [node])
          fun _ before behind => before = behind ∧ behind = [] := by
    intro ahead' hsuffix
    by_cases hend : (current s ahead').kind = .endOfFile
    · refine ⟨_, programTurn_ended hend, fun _ => ⟨rfl, ?_⟩⟩
      exact eq_nil_of_current s (fun t ht => hne t (hsuffix.subset ht)) hend
    · obtain ⟨p, hp, hreads⟩ := statement_reads s depth ahead' hend
      exact ⟨_, programTurn_item hend hp, hreads⟩
  obtain ⟨p, hp, hreads⟩ := loop_reads s "program" hturn
  rw [program_eq_loop, hp]
  refine ⟨_, rfl, fun hc => ⟨_, rfl, ?_⟩⟩
  dsimp only [Parsed.behind, Parsed.map] at hc ⊢
  rw [guarded_append] at hc
  obtain ⟨behind, hitems, hend⟩ := hreads fun hg => hc (.inl hg)
  have hsuffix := p.suffix
  generalize p.rest = rest at hend hsuffix ⊢
  generalize p.value.2 = result at hend
  have hstop : ∀ t ∈ rest, t.kind ≠ .endOfFile := fun t ht => hne t (hsuffix.subset ht)
  cases hend with
  | done h =>
    obtain ⟨rfl, hrest⟩ := h
    exact leftovers_reads s hstop (fun hne => absurd hrest hne) hitems.statements
  | halted _ hcut => exact leftovers_reads s hstop (fun _ => hcut) hitems.statements

end Parse

/-! ## Programs of a token list -/

/-- The setting in which tokens are parsed that `stop` ends. -/
def Limits.setting (limits : Limits) (ts : List Token) (stop : Token) : Setting where
  total := ts.length
  endValue := stop.value
  endLine := stop.line
  maxRounds := limits.maxRounds.getD (ts.length + 2)
  maxDepth := limits.maxDepth

/-- The program that the tokens ahead hold, and the reports about it. -/
def Parse.outcome (s : Setting) (ahead : List Token) :
    Except ParseError (Program × List Report) :=
  match Parse.program s 0 ahead with
  | .ok p => .ok (p.value, p.reports)
  | .error halt => .error halt.cause

theorem Session.tryRun_program {session : Session} (hd : session.depth = 0)
    (hr : session.reports = []) :
    (match session.tryRun Parse.program with
      | (.ok program, last) => .ok (program, last.reports)
      | (.error e, _) => .error e) = Parse.outcome session.setting session.ahead := by
  unfold tryRun Parse.outcome
  rw [hd, hr]
  cases Parse.program session.setting 0 session.ahead with
  | ok p => rfl
  | error halt => rfl

/-- A token list that ends in an end mark is parsed from its first token to its last. -/
theorem parse_eq_outcome {ts : List Token} (hne : ∀ t ∈ ts, t.kind ≠ .endOfFile) {stop : Token}
    (hstop : stop.kind = .endOfFile) (limits : Limits) :
    parse (ts ++ [stop]) limits = Parse.outcome (limits.setting ts stop) ts := by
  have hmark : withEndMark (ts ++ [stop]) = ts ++ [stop] := by
    simp [withEndMark, hstop]
  have hread : (Session.ofTokens (ts ++ [stop]) limits).readable = ts := by
    simp only [Session.readable, Session.ofTokens, hmark]
    rw [List.takeWhile_append_of_pos (by simpa using hne)]
    simp [hstop]
  have hend : (Session.ofTokens (ts ++ [stop]) limits).endMark = stop := by
    have hnone : ts.find? (fun t => t.kind = .endOfFile) = none := by simpa using hne
    simp only [Session.endMark, Session.ofTokens, hmark]
    rw [List.find?_append, hnone]
    simp [hstop]
  have hsetting : (Session.ofTokens (ts ++ [stop]) limits).setting = limits.setting ts stop := by
    simp only [Session.setting, hread, hend, Limits.setting]
    simp [Session.ofTokens, hmark, Int.add_assoc]
  have hahead : (Session.ofTokens (ts ++ [stop]) limits).ahead = ts := by
    rw [Session.ahead, hread]
    rfl
  have hrun := @Session.tryRun_program (Session.ofTokens (ts ++ [stop]) limits) rfl rfl
  rw [hsetting, hahead] at hrun
  exact hrun

/-- The program of tokens is read, and its statements stand for all of them. -/
theorem Parse.outcome_reads (s : Setting) {ts : List Token}
    (hne : ∀ t ∈ ts, t.kind ≠ .endOfFile) :
    ∃ (nodes : List Node) (reports : List Report),
      Parse.outcome s ts = .ok (⟨nodes.map some⟩, reports) ∧
        Reading.Program (Guarded reports) nodes ts := by
  obtain ⟨p, hp, -⟩ := @Parse.program_reads s True 0 ts hne
  obtain ⟨q, hq, hreads⟩ := @Parse.program_reads s (Guarded p.reports) 0 ts hne
  obtain rfl : p = q := Except.ok.inj (hp.symm.trans hq)
  obtain ⟨nodes, hvalue, hprogram⟩ := hreads id
  refine ⟨nodes, p.reports, ?_, hprogram⟩
  unfold Parse.outcome
  rw [hp, ← hvalue]

/-- No end mark is among the tokens before the first one. -/
theorem Session.kind_ne_of_mem_readable (session : Session) {t : Token}
    (h : t ∈ session.readable) : t.kind ≠ .endOfFile := by
  simpa using List.all_eq_true.mp List.all_takeWhile t h

/-- A parse of any tokens is that of the tokens before the first end mark. -/
theorem parse_eq_readable (tokens : List Token) (limits : Limits) :
    parse tokens limits = Parse.outcome (Session.ofTokens tokens limits).setting
      (Session.ofTokens tokens limits).readable :=
  @Session.tryRun_program (Session.ofTokens tokens limits) rfl rfl

/-- A parse of any tokens succeeds. -/
theorem exists_program_eq (tokens : List Token) (limits : Limits) :
    ∃ p : Parsed Program (Session.ofTokens tokens limits).readable,
      Parse.program (Session.ofTokens tokens limits).setting 0
        (Session.ofTokens tokens limits).readable = .ok p ∧
      parse tokens limits = .ok (p.value, p.reports) := by
  let session := Session.ofTokens tokens limits
  obtain ⟨p, hp, -⟩ := @Parse.program_reads session.setting True 0 session.readable
    fun t ht => session.kind_ne_of_mem_readable ht
  refine ⟨p, hp, ?_⟩
  rw [parse_eq_readable, Parse.outcome, hp]

end Gcode
