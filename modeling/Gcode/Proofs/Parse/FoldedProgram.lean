import Gcode.Proofs.Parse.Folded
import Gcode.Proofs.Parse.OWord

/-!
# Reading programs without regard to case

What is read from folded tokens is the folded program: the loops over commands, over the statements
of a block and over those of the program take the same turns, and blocks are closed in the same
places.

## Main definitions

* `Turn.Folds` — one turn comes to what another comes to, folded.

## Main statements

* `Parse.turns_folds` — a loop whose turns commute with folding commutes with it.
* `Parse.statement_folds`, `Parse.outcome_folded` — so do statements and programs.
-/

namespace Gcode

open Parsed (Folds)

variable {ε α β : Type}

/-- What the second turn came to is what the first came to, folded. -/
def Turn.Folds (f : α → α) (g : β → β) {ahead ahead' : List Token} :
    Turn α β ahead → Turn α β ahead' → Prop
  | .item p, .item q => Parsed.Folds f p q
  | .done p, .done q => Parsed.Folds g p q
  | _, _ => False

/-- The program with its texts folded. -/
def Program.folded (program : Program) : Program := ⟨Node.foldedOf program.statements⟩

/-- If the first parse does not give up, the second comes to the same, folded. -/
def FoldsOk (f : α → α) {ahead ahead' : List Token} (x : Except (Halt ε) (Parsed α ahead))
    (y : Except (Halt ε) (Parsed α ahead')) : Prop :=
  ∀ p, x = .ok p → ∃ q, y = .ok q ∧ Folds f p q

theorem FoldsOk.ok {f : α → α} {ahead ahead' : List Token} {p : Parsed α ahead}
    {q : Parsed α ahead'} (h : Folds f p q) :
    FoldsOk (ε := ε) f (.ok p) (.ok q) := by
  intro p' hp
  cases hp
  exact ⟨q, rfl, h⟩

theorem FoldsOk.tryBehind {f : α → α} {g : β → β} {ahead ahead' : List Token}
    {p : Parsed α ahead} {q : Parsed α ahead'} (h : Folds f p q)
    {x : Except (Halt ε) (Parsed β p.rest)} {y : Except (Halt ε) (Parsed β q.rest)}
    (k : FoldsOk g x y) : FoldsOk g (p.tryBehind x) (q.tryBehind y) := by
  intro p' hp
  cases x with
  | error halt => cases hp
  | ok r =>
    obtain ⟨r', hr', hfolds⟩ := k r rfl
    cases hp
    exact ⟨q.behind r', Parsed.tryBehind_ok q hr', h.behind hfolds⟩

namespace Parse

variable (s : Setting)

/-! ## Loops -/

section Loop

variable {f : α → α} {g : β → β} (place : Text) {start start' : List Token}
  {turn : (ahead : List Token) → ahead <:+ start → Except (Halt ε) (Turn α β ahead)}
  {turn' : (ahead : List Token) → ahead <:+ start' → Except (Halt ε) (Turn α β ahead)}

/-- The items of a loop and its result, folded. -/
def foldedLoop (f : α → α) (g : β → β) (v : List α × Option β) : List α × Option β :=
  (v.1.map f, v.2.map g)

theorem turns_folds
    (hturn : ∀ ahead h h' r, turn ahead h = .ok r →
      ∃ r', turn' (ahead.map Token.folded) h' = .ok r' ∧ r.Folds f g r')
    (n : Nat) (ahead : List Token) (h : ahead <:+ start) {ahead' : List Token}
    (hahead : ahead' = ahead.map Token.folded) (h' : ahead' <:+ start') :
    FoldsOk (foldedLoop f g) (turns s place start turn n ahead h)
      (turns s.folded place start' turn' n ahead' h') := by
  induction n generalizing ahead ahead' with
  | zero =>
    subst hahead
    refine .ok (.reporting rfl ?_)
    rw [current_folded]
    rfl
  | succ n ih =>
    subst hahead
    intro p hp
    obtain ⟨q, hq, rfl⟩ | ⟨q, hq, hstall, rfl⟩ | ⟨q, more, hq, hlt, hmore, rfl⟩ :=
      turns_succ_eq_ok hp
    · obtain ⟨_ | q', hr', hfolds⟩ := hturn ahead h h' _ hq
      · exact hfolds.elim
      · exact ⟨_, turns_of_done hr', Folds.map hfolds fun _ => rfl⟩
    · obtain ⟨q' | _, hr', hfolds⟩ := hturn ahead h h' _ hq
      · have hitem : Folds f q q' := hfolds
        refine ⟨_, turns_of_stalled hr' ?_, hitem.behind ?_⟩
        · rw [hitem.rest_eq, List.length_map, List.length_map, hstall]
        · rw [hitem.value_eq, hitem.rest_eq]
          refine .reporting rfl ?_
          rw [current_folded, Setting.position, List.length_map]
          rfl
      · exact hfolds.elim
    · obtain ⟨q' | _, hr', hfolds⟩ := hturn ahead h h' _ hq
      · have hitem : Folds f q q' := hfolds
        obtain ⟨more', hmore', hrest⟩ :=
          ih q.rest (q.suffix.trans h) hitem.rest_eq (q'.suffix.trans h') more hmore
        rw [turns_of_item hr' (by rw [hitem.rest_eq]; simpa using hlt), hmore']
        refine ⟨_, rfl, hitem.behind (hrest.map fun v => ?_)⟩
        rw [hitem.value_eq]
        rfl
      · exact hfolds.elim

theorem loop_folds
    (hturn : ∀ ahead h h' r, turn ahead h = .ok r →
      ∃ r', turn' (ahead.map Token.folded) h' = .ok r' ∧ r.Folds f g r')
    (hstart : start' = start.map Token.folded) :
    FoldsOk (foldedLoop f g) (loop s place start turn) (loop s.folded place start' turn') :=
  turns_folds s place hturn _ start _ hstart _

theorem steadyLoop_folds {turn turn' : (ahead : List Token) → Turn α β ahead}
    (hturn : ∀ ahead, (turn ahead).Folds f g (turn' (ahead.map Token.folded))) :
    Folds (foldedLoop f g) (steadyLoop s place start turn)
      (steadyLoop s.folded place (start.map Token.folded) turn') := by
  have hloop : FoldsOk (foldedLoop f g)
      (loop s place start fun ahead _ => (.ok (turn ahead) : Except (Halt Empty) _))
      (loop s.folded place (start.map Token.folded) fun ahead _ =>
        (.ok (turn' ahead) : Except (Halt Empty) _)) := by
    refine loop_folds s place (fun ahead _ _ r hr => ?_) rfl
    cases hr
    exact ⟨_, rfl, hturn ahead⟩
  rw [loop_eq_steadyLoop, loop_eq_steadyLoop] at hloop
  obtain ⟨q, hq, hfolds⟩ := hloop _ rfl
  cases hq
  exact hfolds

end Loop

/-! ## Lines of commands -/

theorem wordWithValue_folds (depth : Nat) (ahead : List Token) :
    Folds Node.folded (wordWithValue s depth ahead)
      (wordWithValue s.folded depth (ahead.map Token.folded)) := by
  have hletter := advance_folds s ahead
  rw [wordWithValue, wordWithValue]
  refine (@Folds.behind _ _ _ Node.folded? _ _ _ _ hletter _ _ ?_).map fun v => ?_
  · rw [hletter.rest_eq, current_folded, startsValue_folded]
    split
    · exact value_folds s depth _
    · exact .pure rfl
  · rw [hletter.value_eq]
    rfl

theorem command_folds (depth : Nat) (ahead : List Token) :
    Folds Node.folded (command s depth ahead)
      (command s.folded depth (ahead.map Token.folded)) := by
  rw [command, command, current_folded, Token.kind_folded]
  split
  · exact wordWithValue_folds s depth ahead
  · exact bracketed_folds s depth ahead
  · exact functionCall_folds s depth ahead
  · exact unknown_folds s ahead

theorem comment_folds (ahead : List Token) :
    Folds Node.folded (comment s ahead) (comment s.folded (ahead.map Token.folded)) :=
  (advance_folds s ahead).map fun _ => rfl

theorem lineBreak_folds (ahead : List Token) :
    Folds Node.folded (lineBreak s ahead) (lineBreak s.folded (ahead.map Token.folded)) :=
  (advance_folds s ahead).map fun _ => rfl

theorem commandTurn_folds (depth : Nat) (ahead : List Token) :
    (commandTurn s depth ahead).Folds Node.folded id
      (commandTurn s.folded depth (ahead.map Token.folded)) := by
  rw [commandTurn, commandTurn, endsCommands_folded, current_folded, Token.kind_folded]
  split
  · exact Folds.pure rfl
  · split
    · exact comment_folds s ahead
    · exact command_folds s depth ahead

theorem commands_folds (depth : Nat) (ahead : List Token) :
    Folds (List.map Node.folded) (commands s depth ahead)
      (commands s.folded depth (ahead.map Token.folded)) :=
  (steadyLoop_folds s "command line" (commandTurn_folds s depth)).map fun _ => rfl

theorem commandLine_folds (depth : Nat) (ahead : List Token) :
    Folds Node.folded (commandLine s depth ahead)
      (commandLine s.folded depth (ahead.map Token.folded)) := by
  refine (commands_folds s depth ahead).map fun nodes => ?_
  rw [Node.folded, Node.foldedOf_map_some]

/-! ## Assignments and headers -/

theorem assignment_folds (depth : Nat) (ahead : List Token) :
    Folds Node.folded (assignment s depth ahead)
      (assignment s.folded depth (ahead.map Token.folded)) := by
  have htarget := advance_folds s ahead
  have hexpect := expect_folds s .assign (advance s ahead).rest
  rw [← htarget.rest_eq] at hexpect
  have hsign := htarget.behind hexpect
  have hvalue := value_folds s depth (((advance s ahead).behind
    (expect s .assign (advance s ahead).rest)).rest)
  rw [← hsign.rest_eq] at hvalue
  refine (hsign.behind hvalue).map fun v => ?_
  rw [htarget.value_eq]
  rfl

theorem flatStatement_folds (depth : Nat) (header : Node) (ahead : List Token) :
    Folds Node.folded (flatStatement s depth header ahead)
      (flatStatement s.folded depth header.folded (ahead.map Token.folded)) :=
  (commandLine_folds s depth ahead).map fun _ => rfl

theorem branchCondition_folds (depth : Nat) (keyword : Text) (ahead : List Token) :
    Folds Node.folded? (branchCondition s depth keyword ahead)
      (branchCondition s.folded depth keyword (ahead.map Token.folded)) := by
  unfold branchCondition
  split
  · exact optionalBracket_folds s depth ahead
  · exact .pure rfl

theorem labelAhead_folds (depth : Nat) (ahead : List Token) :
    Folds Node.folded? (labelAhead s depth ahead)
      (labelAhead s.folded depth (ahead.map Token.folded)) := by
  have hvalue := value_folds s depth (advance s ahead).rest
  rwa [← (advance_folds s ahead).rest_eq] at hvalue

theorem keywordAhead_folded (depth : Nat) (ahead : List Token) :
    keywordAhead s.folded depth (ahead.map Token.folded) =
      (keywordAhead s depth ahead).folded := by
  rw [keywordAhead, (labelAhead_folds s depth ahead).rest_eq, current_folded]
  rfl

theorem upper_keywordAhead_folded (depth : Nat) (ahead : List Token) :
    Text.upper (keywordAhead s.folded depth (ahead.map Token.folded)).value =
      Text.upper (keywordAhead s depth ahead).value := by
  rw [keywordAhead_folded, Token.value_folded, Text.upper_folded]

theorem labelled_folds (depth : Nat) (ahead : List Token) :
    Folds Node.folded? (labelled s depth ahead)
      (labelled s.folded depth (ahead.map Token.folded)) :=
  (advance_folds s ahead).behind (labelAhead_folds s depth ahead)

theorem keyworded_folds (depth : Nat) (ahead : List Token) :
    Folds Token.folded (keyworded s depth ahead)
      (keyworded s.folded depth (ahead.map Token.folded)) := by
  have hlabelled := labelled_folds s depth ahead
  refine hlabelled.behind ?_
  rw [hlabelled.rest_eq]
  exact advance_folds s _

theorem branched_folds (depth : Nat) (ahead : List Token) :
    Folds Node.folded? (branched s depth ahead)
      (branched s.folded depth (ahead.map Token.folded)) := by
  have hkeyworded := keyworded_folds s depth ahead
  refine hkeyworded.behind ?_
  rw [hkeyworded.rest_eq, upper_keywordAhead_folded]
  exact branchCondition_folds s depth _ _

/-- The search for the end of a block comes to the same. -/
theorem closesHere_folded (depth : Nat) {label : Option Node} {close : Text} {ahead : List Token}
    {r : Bool} (h : closesHere s depth label close ahead = .ok r) :
    closesHere s.folded depth (Node.folded? label) close (ahead.map Token.folded) = .ok r := by
  rw [closesHere_eq] at h ⊢
  rw [current_folded, isOWord_folded, upper_keywordAhead_folded, keywordAhead_folded,
    Token.kind_folded, (labelAhead_folds s depth ahead).value_eq]
  split
  case isTrue hk =>
    rw [if_pos hk] at h
    exact Node.labelsMatch_folded h
  case isFalse hk =>
    rw [if_neg hk] at h
    exact h

theorem closingHeader_folds (depth : Nat) (ahead : List Token) :
    Folds Node.folded (closingHeader s depth ahead)
      (closingHeader s.folded depth (ahead.map Token.folded)) := by
  have hkeyworded := keyworded_folds s depth ahead
  have hbracket := optionalBracket_folds s depth (keyworded s depth ahead).rest
  rw [← hkeyworded.rest_eq] at hbracket
  rw [closingHeader_eq, closingHeader_eq]
  refine (hkeyworded.behind hbracket).map fun v => ?_
  rw [current_folded, Token.value_folded, (labelAhead_folds s depth ahead).value_eq,
    upper_keywordAhead_folded]
  rfl

/-! ## Statements -/

theorem finished_folds (oWord : Token) (label : Option Node) (keyword close : Text)
    (condition : Option Node) {ahead ahead' : List Token}
    {body : Parsed (List Node × Option (Option Node)) ahead}
    {body' : Parsed (List Node × Option (Option Node)) ahead'}
    (h : Folds (foldedLoop Node.folded Node.folded?) body body') :
    Folds Node.folded (finished oWord label keyword close condition body)
      (finished oWord.folded (Node.folded? label) keyword close (Node.folded? condition)
        body') := by
  have hclosing : body'.value.2.join = Node.folded? body.value.2.join := by
    rw [h.value_eq]
    rcases body.value with ⟨items, _ | _ | closing⟩ <;> rfl
  have hnode : Node.block keyword (some (.header oWord.folded.value (Node.folded? label) keyword
      (Node.folded? condition))) (body'.value.1.map some) body'.value.2.join =
      (Node.block keyword (some (.header oWord.value label keyword condition))
        (body.value.1.map some) body.value.2.join).folded := by
    rw [hclosing, h.value_eq, Node.folded, Node.foldedOf_map_some]
    rfl
  have hsome : body'.value.2.join.isSome = body.value.2.join.isSome := by
    rw [hclosing]
    cases body.value.2.join <;> rfl
  rw [finished, finished]
  dsimp only
  rw [hnode, hsome]
  split
  · exact h.map fun _ => rfl
  · refine h.behind ?_
    rw [h.rest_eq]
    refine .reporting rfl ?_
    rw [Node.describedLabel_folded]
    simp only [Report.folded, Problem.folded, Text.folded_append]
    rfl

theorem blockTurn_folds {depth : Nat} {label : Option Node} {close : Text} {ahead : List Token}
    (hstatement : FoldsOk Node.folded (statement s (depth + 1) ahead)
      (statement s.folded (depth + 1) (ahead.map Token.folded)))
    (r : Turn Node (Option Node) ahead) (hr : blockTurn s depth label close ahead = .ok r) :
    ∃ r', blockTurn s.folded depth (Node.folded? label) close (ahead.map Token.folded) = .ok r' ∧
      r.Folds Node.folded Node.folded? r' := by
  have hcurrent : (current s.folded (ahead.map Token.folded)).kind = (current s ahead).kind := by
    rw [current_folded, Token.kind_folded]
  obtain ⟨hend, rfl⟩ | ⟨hne, ⟨hcloses, rfl⟩ | ⟨hopen, p, hp, rfl⟩⟩ := blockTurn_eq_ok hr
  · exact ⟨_, blockTurn_ended (hcurrent.trans hend), .pure rfl⟩
  · rw [← hcurrent] at hne
    exact ⟨_, blockTurn_closed hne (closesHere_folded s (depth + 1) hcloses),
      (closingHeader_folds s (depth + 1) ahead).map fun _ => rfl⟩
  · rw [← hcurrent] at hne
    obtain ⟨q, hq, hfolds⟩ := hstatement p hp
    exact ⟨_, blockTurn_open hne (closesHere_folded s (depth + 1) hopen) hq, hfolds⟩

mutual

/-- A statement is read from folded tokens as the folded statement. -/
theorem statement_folds (depth : Nat) (ahead : List Token) :
    FoldsOk Node.folded (statement s depth ahead)
      (statement s.folded depth (ahead.map Token.folded)) := by
  rw [statement, statement]
  dsimp only
  rw [current_folded, Token.kind_folded, startsAssignment_folded, isOWord_folded]
  split
  · exact .ok (unknown_folds s ahead)
  split
  · exact .ok (lineBreak_folds s ahead)
  split
  · exact .ok (comment_folds s ahead)
  split
  · exact .ok (assignment_folds s depth ahead)
  split
  · exact oStatement_folds depth ahead
  have hline := commands_folds s depth ahead
  have hempty : (commands s.folded depth (ahead.map Token.folded)).value.isEmpty =
      (commands s depth ahead).value.isEmpty := by
    rw [hline.value_eq, List.isEmpty_map]
  rw [hempty]
  split
  · refine .ok (hline.behind ?_)
    rw [hline.rest_eq]
    exact unknown_folds s _
  · refine .ok (hline.map fun nodes => ?_)
    rw [Node.folded, Node.foldedOf_map_some]
termination_by (ahead.length, 1)
decreasing_by exact Prod.Lex.right _ (by omega)

theorem oStatement_folds (depth : Nat) (ahead : List Token) :
    FoldsOk Node.folded (oStatement s depth ahead)
      (oStatement s.folded depth (ahead.map Token.folded)) := by
  have hlabel := (labelAhead_folds s depth ahead).value_eq
  have hupper := upper_keywordAhead_folded s depth ahead
  have hkind : (keywordAhead s.folded depth (ahead.map Token.folded)).kind =
      (keywordAhead s depth ahead).kind := by
    rw [keywordAhead_folded, Token.kind_folded]
  by_cases hk : (keywordAhead s depth ahead).kind = .flow
  · have hk' := hkind.trans hk
    by_cases hopens :
        (Keyword.closing? (Text.upper (keywordAhead s depth ahead).value)).isSome = true
    · have hlt := length_keyworded_lt hk
      have hkeyworded := keyworded_folds s depth ahead
      rw [oStatement_opens hk hopens, oStatement_opens hk' (by rwa [hupper])]
      refine FoldsOk.tryBehind hkeyworded ?_
      rw [current_folded, hlabel, hupper, hkeyworded.rest_eq]
      exact block_folds depth _ _ _ _
    · have hbranched := branched_folds s depth ahead
      rw [oStatement_branch hk hopens, oStatement_branch hk' (by rwa [hupper])]
      refine .ok (hbranched.behind ?_)
      rw [current_folded, hlabel, hupper, hbranched.value_eq, hbranched.rest_eq]
      exact flatStatement_folds s depth _ _
  · have hlabelled := labelled_folds s depth ahead
    rw [oStatement_bare hk, oStatement_bare (by rwa [hkind])]
    refine .ok (hlabelled.behind ?_)
    rw [current_folded, hlabel, hlabelled.rest_eq]
    exact flatStatement_folds s depth (.header _ _ [] none) _
termination_by (ahead.length, 0)
decreasing_by exact Prod.Lex.left _ _ hlt

theorem block_folds (depth : Nat) (oWord : Token) (label : Option Node) (keyword : Text)
    (ahead : List Token) :
    FoldsOk Node.folded (block s depth oWord label keyword ahead)
      (block s.folded depth oWord.folded (Node.folded? label) keyword
        (ahead.map Token.folded)) := by
  have hcondition := optionalBracket_folds s depth ahead
  by_cases hd : s.maxDepth ≤ depth
  · rw [block_of_le s hd, block_of_le s.folded hd]
    refine .ok (hcondition.behind ?_)
    rw [hcondition.value_eq, hcondition.rest_eq]
    exact (flatStatement_folds s depth _ _).withReport rfl
  · intro p hp
    obtain ⟨close, hclose, body, hbody, rfl⟩ := block_eq_ok s hd hp
    have hloop := @loop_folds _ _ _ s Node.folded Node.folded? (keyword ++ " block")
      (optionalBracket s depth ahead).rest
      (optionalBracket s.folded depth (ahead.map Token.folded)).rest
      (fun ahead _ => blockTurn s depth label close ahead)
      (fun ahead _ => blockTurn s.folded depth (Node.folded? label) close ahead)
      (fun ahead' hsuffix _ r hr => blockTurn_folds s (statement_folds (depth + 1) ahead') r hr)
      hcondition.rest_eq
    obtain ⟨body', hbody', hfolds⟩ := hloop body hbody
    rw [block_eq_loop s.folded hd oWord.folded _ hclose, hbody']
    refine ⟨_, rfl, hcondition.behind ?_⟩
    rw [hcondition.value_eq]
    exact finished_folds oWord label keyword close _ hfolds
termination_by (ahead.length, 2)
decreasing_by
  exact Prod.Lex.right' _ (Nat.le_trans (List.IsSuffix.length_le ‹_›) (Parsed.length_rest_le _))
    (by omega)

end

/-! ## Programs -/

theorem lineBreaks_folds (ahead : List Token) :
    Folds (List.map Node.folded) (lineBreaks ahead) (lineBreaks (ahead.map Token.folded)) := by
  induction ahead with
  | nil => exact .pure rfl
  | cons t rest ih =>
    rw [List.map_cons, lineBreaks, lineBreaks, Token.kind_folded]
    split
    · refine (ih.map ?_).behindToken t t.folded
      exact fun _ => rfl
    · exact @Folds.pure _ _ (t :: rest) _ _ rfl

theorem leftovers_folds (ahead : List Token) :
    Folds (List.map Node.folded) (leftovers s ahead)
      (leftovers s.folded (ahead.map Token.folded)) := by
  have hbreaks := lineBreaks_folds ahead
  have hremainder := remainder_folds s (lineBreaks ahead).rest
  have hkind : (current s.folded (lineBreaks (ahead.map Token.folded)).rest).kind =
      (current s (lineBreaks ahead).rest).kind := by
    rw [hbreaks.rest_eq, current_folded, Token.kind_folded]
  rw [leftovers, leftovers, hkind]
  split
  · exact hbreaks
  · rw [← hbreaks.rest_eq] at hremainder
    refine (hbreaks.behind hremainder).map fun node => ?_
    rw [hbreaks.value_eq, List.map_append]
    rfl

/-- A program is read from folded tokens as the folded program. -/
theorem program_folds (depth : Nat) (ahead : List Token) :
    FoldsOk Program.folded (program s depth ahead)
      (program s.folded depth (ahead.map Token.folded)) := by
  have hturn : ∀ (ahead' : List Token) (r : Turn Node Unit ahead'),
      programTurn s depth ahead' = .ok r →
      ∃ r', programTurn s.folded depth (ahead'.map Token.folded) = .ok r' ∧
        r.Folds Node.folded id r' := by
    intro ahead' r hr
    have hcurrent : (current s.folded (ahead'.map Token.folded)).kind =
        (current s ahead').kind := by
      rw [current_folded, Token.kind_folded]
    obtain ⟨hend, rfl⟩ | ⟨hne, p, hp, rfl⟩ := programTurn_eq_ok hr
    · exact ⟨_, programTurn_ended (hcurrent.trans hend), .pure rfl⟩
    · rw [← hcurrent] at hne
      obtain ⟨q, hq, hfolds⟩ := statement_folds s depth ahead' p hp
      exact ⟨_, programTurn_item hne hq, hfolds⟩
  have hloop : FoldsOk (foldedLoop Node.folded id)
      (loop s "program" ahead fun ahead _ => programTurn s depth ahead)
      (loop s.folded "program" (ahead.map Token.folded) fun ahead _ =>
        programTurn s.folded depth ahead) :=
    loop_folds s "program" (fun ahead' _ _ r hr => hturn ahead' r hr) rfl
  rw [program_eq_loop, program_eq_loop]
  intro p hp
  obtain ⟨items, hitems, rfl⟩ := map_eq_ok.mp hp
  obtain ⟨items', hitems', hfolds⟩ := hloop items hitems
  refine ⟨_, map_eq_ok.mpr ⟨items', hitems', rfl⟩, ?_⟩
  have hleftovers := leftovers_folds s items.rest
  rw [← hfolds.rest_eq] at hleftovers
  refine (hfolds.behind hleftovers).map fun more => ?_
  rw [hfolds.value_eq, Program.folded, Node.foldedOf_map_some, List.map_append (f := Node.folded)]
  rfl

/-- The program that folded tokens hold is the folded one, and the reports are the folded ones. -/
theorem outcome_folded {ahead : List Token} {p : Program} {reports : List Report}
    (h : outcome s ahead = .ok (p, reports)) :
    outcome s.folded (ahead.map Token.folded) = .ok (p.folded, reports.map Report.folded) := by
  rw [outcome] at h ⊢
  cases hp : program s 0 ahead with
  | error halt =>
    rw [hp] at h
    cases h
  | ok parsed =>
    rw [hp] at h
    cases h
    obtain ⟨q, hq, hfolds⟩ := program_folds s 0 ahead parsed hp
    rw [hq, ← hfolds.value_eq, ← hfolds.reports_eq]

end Parse

end Gcode
