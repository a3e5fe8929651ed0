import Gcode.Proofs.Parse.OWord
import Gcode.Proofs.Parse.Yields

/-!
# Blocks read turn by turn

The loop over what a block holds goes on until it comes to a line that closes the block or to the
end of the program. With rounds enough it is never stopped before, and the block is known once the
turns of its loop are.

## Main definitions

* `Parse.Course` — the turns of a loop, one after the other, up to the one that ends it.

## Main statements

* `Parse.Course.loop_eq` — what a loop comes to whose turns are known.
* `Parse.exists_course` — the loop over what a block holds is ended by a turn.
* `Parse.block_course` — the block that is made of the turns of its loop.
-/

namespace Gcode.Parse

/-! ## Loops -/

section

variable {ε α β : Type}

/-- The turns of a loop, one after the other: their items, the result of the turn that ends the
loop, the tokens that are left, and the reports. -/
inductive Course (turn : (ahead : List Token) → Except (Halt ε) (Turn α β ahead)) :
    List Token → List α → β → List Token → List Report → Prop
  | done {ahead : List Token} {p : Parsed β ahead} : turn ahead = .ok (.done p) →
    Course turn ahead [] p.value p.rest p.reports
  | item {ahead rest : List Token} {p : Parsed α ahead} {items : List α} {result : β}
    {reports : List Report} : turn ahead = .ok (.item p) → p.rest.length < ahead.length →
    Course turn p.rest items result rest reports →
    Course turn ahead (p.value :: items) result rest (p.reports ++ reports)

variable {turn : (ahead : List Token) → Except (Halt ε) (Turn α β ahead)} {items : List α}
  {result : β} {ahead start rest : List Token} {reports : List Report}

theorem Course.turns_eq (h : Course turn ahead items result rest reports) (s : Setting)
    (place : Text) {n : Nat} (hn : ahead.length < n) (hs : ahead <:+ start) :
    ∃ k, turns s place start (fun ahead _ => turn ahead) n ahead hs =
      .ok ⟨(items, some result), rest, reports, k⟩ := by
  induction h generalizing n with
  | @done ahead p hturn =>
    obtain ⟨n, rfl⟩ := Nat.exists_eq_add_of_lt hn
    refine ⟨p.suffix, ?_⟩
    exact turns_of_done hturn
  | @item ahead rest p items result reports hturn hlt _ ih =>
    obtain ⟨m, rfl⟩ := Nat.exists_eq_add_of_lt hn
    obtain ⟨k, hk⟩ := @ih (ahead.length + m) (by omega) (p.suffix.trans hs)
    refine ⟨k.trans p.suffix, ?_⟩
    rw [turns_of_item hturn hlt, hk]
    rfl

/-- A loop comes to what its turns come to, if that many rounds are allowed. -/
theorem Course.loop_eq (h : Course turn start items result rest reports) {s : Setting}
    (place : Text) (hn : (start.length : Int) < s.maxRounds) :
    ∃ k, loop s place start (fun ahead _ => turn ahead) =
      .ok ⟨(items, some result), rest, reports, k⟩ :=
  h.turns_eq s place (by omega) List.suffix_rfl

end

/-! ## Blocks -/

variable {s : Setting} {depth : Nat} {label : Option Node} {close : Text} {ahead : List Token}

theorem blockTurn_nil (s : Setting) (depth : Nat) (label : Option Node) (close : Text) :
    blockTurn s depth label close [] = .ok (.done (Parsed.pure none [])) := rfl

/-- No block is closed where there is no o-word. -/
theorem closesHere_of_not_isOWord (h : isOWord (current s ahead) = false) :
    closesHere s depth label close ahead = .ok false := by
  rw [closesHere, if_neg (Bool.eq_false_iff.mp h)]

/-- A line break belongs to the block. -/
theorem blockTurn_lineBreak {t : Token} (ht : t.kind = .endOfLine) (rest : List Token) :
    blockTurn s depth label close (t :: rest) = .ok (.item (lineBreak s (t :: rest))) :=
  blockTurn_open (by simp [ht]) (closesHere_of_not_isOWord (by simp [isOWord, ht]))
    (by simp [statement, ht])

/-- The loop over what a block holds is ended by a turn. -/
theorem exists_course (s : Setting) (depth : Nat) (hlabel : ∃ text, Node.label label = .ok text)
    (close : Text) (ahead : List Token) :
    ∃ items result rest reports,
      Course (blockTurn s depth label close) ahead items result rest reports := by
  induction hlength : ahead.length using Nat.strongRecOn generalizing ahead with
  | ind length ih =>
    by_cases hend : (current s ahead).kind = .endOfFile
    · have hturn : blockTurn s depth label close ahead = .ok (.done (Parsed.pure none ahead)) :=
        if_pos hend
      exact ⟨_, _, _, _, .done hturn⟩
    · obtain ⟨closes, hcloses⟩ := closesHere_eq_ok s (depth + 1) hlabel close ahead
      cases closes with
      | true => exact ⟨_, _, _, _, .done (blockTurn_closed hend hcloses)⟩
      | false =>
        obtain ⟨p, hp, -⟩ := @statement_reads s True (depth + 1) ahead hend
        have hlt := statement_length_lt s (depth + 1) hend hp
        obtain ⟨items, result, rest, reports, hcourse⟩ :=
          ih p.rest.length (hlength ▸ hlt) p.rest rfl
        exact ⟨_, _, _, _, .item (blockTurn_open hend hcloses hp) hlt hcourse⟩

/-- What is reported of a block that nothing closes. -/
def unclosed (oWord : Token) (label : Option Node) (keyword close : Text) : Option Node →
    List Report
  | none => [⟨.unclosedBlock (oWord.value ++ Node.describedLabel label) keyword close, oWord.line⟩]
  | some _ => []

/-- A block that does not nest too deep is made of the turns of its loop. -/
theorem block_course (hd : ¬s.maxDepth ≤ depth) (oWord : Token) {keyword : Text}
    (hclose : Keyword.closing? keyword = some close) {condition : Option Node}
    {behind rest : List Token} {rs rs' : List Report}
    (hcondition : (optionalBracket s depth ahead).Yields condition behind rs) {items : List Node}
    {result : Option Node}
    (hcourse : Course (blockTurn s depth label close) behind items result rest rs')
    (hrounds : (behind.length : Int) < s.maxRounds) :
    ∃ p, block s depth oWord label keyword ahead = .ok p ∧
      p.Yields (.block keyword (some (.header oWord.value label keyword condition))
        (items.map some) result) rest
        (rs ++ (rs' ++ unclosed oWord label keyword close result)) := by
  obtain ⟨k, hloop⟩ := hcourse.loop_eq (keyword ++ " block") hrounds
  obtain ⟨_, hcondition⟩ := hcondition.exists_eq
  rw [block_eq_loop s hd oWord label hclose, hcondition]
  dsimp only
  rw [hloop]
  refine ⟨_, rfl, ?_, ?_, ?_⟩ <;> cases result <;>
    simp [finished, Parsed.behind, Parsed.map, Parsed.reporting, unclosed]

/-! ## O-word lines -/

/-- There are no commands where a line of commands ends. -/
theorem commands_nil (hend : endsCommands s ahead = true)
    (hrounds : (ahead.length : Int) < s.maxRounds) :
    (commands s depth ahead).Yields [] ahead [] := by
  have hturn : commandTurn s depth ahead = .done (Parsed.pure () ahead) := if_pos hend
  have hcourse := @Course.done Empty Node Unit (fun ahead => .ok (commandTurn s depth ahead)) ahead
    (Parsed.pure () ahead) (congrArg Except.ok hturn)
  obtain ⟨_, hloop⟩ := hcourse.loop_eq "command line" hrounds
  have hsteady : steadyLoop s "command line" ahead (commandTurn s depth) =
      ⟨([], some ()), ahead, [], List.suffix_rfl⟩ :=
    Except.ok.inj ((loop_eq_steadyLoop s "command line" (commandTurn s depth)).symm.trans hloop)
  rw [commands, hsteady]
  exact ⟨rfl, rfl, rfl⟩

variable {o k : Token} {behind rest : List Token} {n condition : Option Node}
  {rs rs' rs'' : List Report}

/-- A keyword stands behind the label of an o-word line. -/
theorem keyworded_yields (hlabel : (value s depth ahead).Yields n (k :: behind) rs) :
    (keyworded s depth (o :: ahead)).Yields k behind rs := by
  have hrest : (labelAhead s depth (o :: ahead)).rest = k :: behind := hlabel.rest_eq
  have hreports : (labelAhead s depth (o :: ahead)).reports = rs := hlabel.reports_eq
  unfold keyworded labelled
  refine ⟨?_, ?_, ?_⟩ <;>
    simp [Parsed.behind, advance, hrest, hreports]

theorem keywordAhead_cons (hlabel : (value s depth ahead).Yields n (k :: behind) rs) :
    keywordAhead s depth (o :: ahead) = k := by
  show current s (value s depth ahead).rest = k
  rw [hlabel.rest_eq]
  rfl

theorem statement_eq_oStatement_cons (ho : isOWord o = true) :
    statement s depth (o :: ahead) = oStatement s depth (o :: ahead) := statement_eq_oStatement ho

/-- An o-word line that opens a block is the block. -/
theorem statement_block (ho : isOWord o = true)
    (hlabel : (value s depth ahead).Yields label (k :: behind) rs) (hk : k.kind = .flow)
    (hclose : Keyword.closing? (Text.upper k.value) = some close) (hd : ¬s.maxDepth ≤ depth)
    {inside : List Token}
    (hcondition : (optionalBracket s depth behind).Yields condition inside rs')
    {items : List Node} {result : Option Node}
    (hcourse : Course (blockTurn s depth label close) inside items result rest rs'')
    (hrounds : (inside.length : Int) < s.maxRounds) :
    ∃ p, statement s depth (o :: ahead) = .ok p ∧
      p.Yields (.block (Text.upper k.value)
          (some (.header o.value label (Text.upper k.value) condition)) (items.map some) result)
        rest (rs ++ (rs' ++ (rs'' ++ unclosed o label (Text.upper k.value) close result))) := by
  have hkeyword : keywordAhead s depth (o :: ahead) = k := keywordAhead_cons hlabel
  have hopens : (Keyword.closing? (Text.upper (keywordAhead s depth (o :: ahead)).value)).isSome =
      true := by
    rw [hkeyword, hclose]
    rfl
  have hn : (labelAhead s depth (o :: ahead)).value = label := hlabel.value_eq
  obtain ⟨p, hp, hyields⟩ := block_course hd o hclose hcondition hcourse hrounds
  obtain ⟨_, hkeyworded⟩ := (keyworded_yields (o := o) hlabel).exists_eq
  rw [statement_eq_oStatement_cons ho, oStatement_opens (by rw [hkeyword, hk]) hopens,
    hkeyworded, hn, hkeyword]
  dsimp only [current_cons]
  rw [hp]
  exact ⟨_, rfl, hyields.value_eq, hyields.rest_eq, congrArg (rs ++ ·) hyields.reports_eq⟩

/-- An o-word line with a keyword that opens no block and takes no condition is a header with the
commands behind it. -/
theorem statement_flat (ho : isOWord o = true)
    (hlabel : (value s depth ahead).Yields label (k :: behind) rs) (hk : k.kind = .flow)
    (hopens : Keyword.closing? (Text.upper k.value) = none)
    (hbranch : Text.upper k.value ≠ "ELSEIF") {nodes : List Node}
    (hcommands : (commands s depth behind).Yields nodes rest rs') :
    ∃ p, statement s depth (o :: ahead) = .ok p ∧
      p.Yields (.oStatement (some (.header o.value label (Text.upper k.value) none))
        (some (.commandLine (nodes.map some)))) rest (rs ++ rs') := by
  have hkeyword : keywordAhead s depth (o :: ahead) = k := keywordAhead_cons hlabel
  have hn : (labelAhead s depth (o :: ahead)).value = label := hlabel.value_eq
  obtain ⟨hvalue, hrest, hreports⟩ := keyworded_yields (o := o) hlabel
  have hbranched : (branched s depth (o :: ahead)).Yields none behind (rs ++ []) := by
    refine .behind hreports ?_
    rw [branchCondition, hkeyword, if_neg hbranch, hrest]
    exact ⟨rfl, rfl, rfl⟩
  rw [List.append_nil] at hbranched
  refine ⟨_, (statement_eq_oStatement_cons ho).trans (oStatement_branch (by rw [hkeyword, hk])
    (by rw [hkeyword, hopens]; decide)), .behind hbranched.reports_eq ?_⟩
  rw [hbranched.value_eq, hbranched.rest_eq, hn, hkeyword]
  exact (hcommands.map _).map _

/-- An o-word line without a keyword is no block. -/
theorem statement_bare (ho : isOWord o = true)
    (hk : (current s (value s depth ahead).rest).kind ≠ .flow) :
    ∃ p header line, statement s depth (o :: ahead) = .ok p ∧
      p.value = .oStatement header line := by
  exact ⟨_, _, _, (statement_eq_oStatement_cons ho).trans (oStatement_bare hk), rfl⟩

/-! ## Lines that close a block -/

/-- A line with the right keyword closes a block if the labels match. -/
theorem closesHere_cons (ho : isOWord o = true)
    (hlabel : (value s depth ahead).Yields n (k :: behind) rs) (hk : k.kind = .flow) :
    closesHere s depth label (Text.upper k.value) (o :: ahead) = Node.labelsMatch label n := by
  have hkeyword : keywordAhead s depth (o :: ahead) = k := keywordAhead_cons hlabel
  have hn : (labelAhead s depth (o :: ahead)).value = n := hlabel.value_eq
  rw [closesHere_eq, hkeyword, if_pos (by simp [ho, hk]), hn]

theorem closingHeader_yields (hlabel : (value s depth ahead).Yields n (k :: behind) rs)
    (hcondition : (optionalBracket s depth behind).Yields condition rest rs') :
    (closingHeader s depth (o :: ahead)).Yields
      (.header o.value n (Text.upper k.value) condition) rest (rs ++ rs') := by
  have hkeyword : keywordAhead s depth (o :: ahead) = k := keywordAhead_cons hlabel
  have hn : (labelAhead s depth (o :: ahead)).value = n := hlabel.value_eq
  obtain ⟨_, hkeyworded⟩ := (keyworded_yields (o := o) hlabel).exists_eq
  obtain ⟨_, hcondition⟩ := hcondition.exists_eq
  rw [closingHeader_eq, hkeyworded, hn, hkeyword]
  dsimp only
  rw [hcondition]
  exact ⟨rfl, rfl, rfl⟩

end Gcode.Parse
