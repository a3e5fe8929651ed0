import Gcode.Proofs.Parse.Room
import Gcode.Proofs.Parse.Rounds

/-!
# Room for the nesting of a program

A block takes at least its o-word and its keyword, so a program nests no deeper than it has
tokens. If that much nesting is allowed, no limit is reached; and what was read without reaching
one is read the same if deeper nesting is allowed.

## Main definitions

* `Turn.Unguarded` — a turn of a loop took a token for its item and reached no limit.
* `Parse.Ample` — the limits allow as many levels and rounds as there are tokens ahead.

## Main statements

* `Parse.turns_unguarded` — a loop with rounds enough reaches no limit if none of its turns does.
* `Parse.statement_unguarded` — a statement within ample limits reaches none of them.
* `Parse.Steps.unguarded` — the same of statements that are read one after the other.
* `parse_maxDepth` — the limit on nesting is only a guard.
-/

namespace Gcode

variable {ε α β : Type}

theorem not_guarded_append {rs ss : List Report} (h : ¬Guarded rs) (h' : ¬Guarded ss) :
    ¬Guarded (rs ++ ss) := by
  rw [guarded_append, not_or]
  exact ⟨h, h'⟩

/-- No limit was reached by the turn, and an item took a token. -/
def Turn.Unguarded {ahead : List Token} : Turn α β ahead → Prop
  | .item p => ¬Guarded p.reports ∧ p.rest.length < ahead.length
  | .done p => ¬Guarded p.reports

namespace Parse

variable (s : Setting)

/-! ## Loops -/

section

variable (place : Text) {start : List Token}
  {turn : (ahead : List Token) → ahead <:+ start → Except (Halt ε) (Turn α β ahead)}

/-- A loop that may take more rounds than there are tokens reaches no limit if no turn does. -/
theorem turns_unguarded (hturn : ∀ ahead h r, turn ahead h = .ok r → r.Unguarded) (n : Nat)
    (ahead : List Token) (h : ahead <:+ start) (hn : ahead.length < n)
    {p : Parsed (List α × Option β) ahead} (hp : turns s place start turn n ahead h = .ok p) :
    ¬Guarded p.reports := by
  induction n generalizing ahead with
  | zero => exact absurd hn (Nat.not_lt_zero _)
  | succ n ih =>
    obtain ⟨q, hq, rfl⟩ | ⟨q, hq, hstall, -⟩ | ⟨q, more, hq, -, hmore, rfl⟩ := turns_succ_eq_ok hp
    · exact hturn ahead h _ hq
    · obtain ⟨-, hlt⟩ := hturn ahead h _ hq
      exact absurd hstall (Nat.ne_of_lt hlt)
    · obtain ⟨hitem, hlt⟩ := hturn ahead h _ hq
      have hmoreTurns := ih q.rest (q.suffix.trans h) (by omega) hmore
      exact not_guarded_append hitem hmoreTurns

/-- The same of a loop whose turns cannot give up. -/
theorem steadyLoop_unguarded {turn : (ahead : List Token) → Turn α β ahead}
    (hturn : ∀ ahead, ahead <:+ start → (turn ahead).Unguarded)
    (hn : EnoughRounds s False start) : ¬Guarded (steadyLoop s place start turn).reports := by
  refine turns_unguarded s place (fun ahead h r hr => ?_) _ start List.suffix_rfl
    (hn.lt_toNat not_false) (loop_eq_steadyLoop s place turn)
  cases hr
  exact hturn ahead h

end

/-! ## Lines of commands and parts of statements -/

/-- The limits allow as many levels and rounds as there are tokens ahead. -/
structure Ample (depth : Nat) (ahead : List Token) : Prop where
  levels : ((depth + ahead.length : Nat) : Int) ≤ s.maxDepth
  rounds : EnoughRounds s False ahead

namespace Ample

variable {s} {depth : Nat} {ahead ahead' : List Token}

theorem mono (h : Ample s depth ahead) (hle : ahead'.length ≤ ahead.length) :
    Ample s depth ahead' :=
  ⟨Int.le_trans (Int.ofNat_le.mpr (by omega)) h.levels, h.rounds.mono hle⟩

/-- A level is paid for with a token. -/
theorem deeper (h : Ample s depth ahead) (hlt : ahead'.length < ahead.length) :
    Ample s (depth + 1) ahead' :=
  ⟨Int.le_trans (Int.ofNat_le.mpr (by omega)) h.levels, h.rounds.mono (Nat.le_of_lt hlt)⟩

theorem behind {α : Type} (h : Ample s depth ahead) (p : Parsed α ahead) :
    Ample s depth p.rest := h.mono p.length_rest_le

theorem value_unguarded (h : Ample s depth ahead) : ¬Guarded (value s depth ahead).reports :=
  Parse.value_unguarded s depth ahead h.levels

end Ample

variable {s} {depth : Nat} {ahead : List Token}

theorem bracketed_unguarded (h : Ample s depth ahead)
    (hk : (current s ahead).kind = .openBracket) : ¬Guarded (bracketed s depth ahead).reports := by
  obtain ⟨t, rest, rfl, ht⟩ := eq_cons_of_kind s hk (by decide)
  rw [← opened_eq_bracketed s depth ht]
  exact (opened_roomy s depth t rest h.levels).1

theorem optionalBracket_unguarded (h : Ample s depth ahead) :
    ¬Guarded (optionalBracket s depth ahead).reports := by
  unfold optionalBracket
  split
  case isTrue hk => exact bracketed_unguarded h hk
  case isFalse => exact not_guarded_nil

theorem unknown_unguarded (ahead : List Token) : ¬Guarded (unknown s ahead).reports := by
  unfold unknown
  dsimp only
  split
  · exact not_guarded_nil
  · exact not_guarded_singleton (by simp [Report.kind, Problem.kind])

theorem command_unguarded (h : Ample s depth ahead) :
    ¬Guarded (command s depth ahead).reports := by
  have htail := h.behind (advance s ahead)
  unfold command
  split
  case h_1 =>
    unfold wordWithValue
    dsimp only [Parsed.behind, Parsed.map]
    refine not_guarded_append not_guarded_nil ?_
    split
    · exact htail.value_unguarded
    · exact not_guarded_nil
  case h_2 hk => exact bracketed_unguarded h hk
  case h_3 => exact not_guarded_append not_guarded_nil (optionalBracket_unguarded htail)
  case h_4 => exact unknown_unguarded ahead

theorem commandTurn_unguarded (h : Ample s depth ahead) :
    (commandTurn s depth ahead).Unguarded := by
  have htakes := commandTurn_told s depth ahead
  unfold commandTurn at htakes ⊢
  split
  · exact not_guarded_nil
  case isFalse hend =>
    rw [if_neg hend] at htakes
    split
    case isTrue hk =>
      rw [if_pos hk] at htakes
      exact ⟨not_guarded_nil, htakes.2⟩
    case isFalse hk =>
      rw [if_neg hk] at htakes
      exact ⟨command_unguarded h, htakes.2⟩

theorem commands_unguarded (h : Ample s depth ahead) :
    ¬Guarded (commands s depth ahead).reports :=
  steadyLoop_unguarded s "command line"
    (fun _ hsuffix => commandTurn_unguarded (h.mono hsuffix.length_le)) h.rounds

theorem assignment_unguarded (h : Ample s depth ahead) :
    ¬Guarded (assignment s depth ahead).reports := by
  have hsign := (h.behind (advance s ahead)).behind (expect s .assign (advance s ahead).rest)
  exact not_guarded_append (not_guarded_append not_guarded_nil (expect_unguarded s .assign _))
    hsign.value_unguarded

theorem labelled_unguarded (h : Ample s depth ahead) :
    ¬Guarded (labelled s depth ahead).reports :=
  not_guarded_append not_guarded_nil (h.behind (advance s ahead)).value_unguarded

theorem keyworded_unguarded (h : Ample s depth ahead) :
    ¬Guarded (keyworded s depth ahead).reports :=
  not_guarded_append (labelled_unguarded h) not_guarded_nil

theorem branched_unguarded (h : Ample s depth ahead) :
    ¬Guarded (branched s depth ahead).reports := by
  refine not_guarded_append (keyworded_unguarded h) ?_
  unfold branchCondition
  split
  · exact optionalBracket_unguarded (h.behind (keyworded s depth ahead))
  · exact not_guarded_nil

theorem closingHeader_unguarded (h : Ample s depth ahead) :
    ¬Guarded (closingHeader s depth ahead).reports := by
  rw [closingHeader_eq]
  exact not_guarded_append (keyworded_unguarded h)
    (optionalBracket_unguarded (h.behind (keyworded s depth ahead)))

/-! ## Blocks -/

/-- A block reaches no limit if its lines reach none: that nothing closes it is no limit. -/
theorem finished_unguarded {oWord : Token} {label condition : Option Node} {keyword close : Text}
    {body : Parsed (List Node × Option (Option Node)) ahead} (h : ¬Guarded body.reports) :
    ¬Guarded (finished oWord label keyword close condition body).reports := by
  unfold finished
  dsimp only
  split
  · exact h
  · exact not_guarded_append h (not_guarded_singleton (by simp [Report.kind, Problem.kind]))

theorem blockTurn_unguarded {label : Option Node} {close : Text} (h : Ample s (depth + 1) ahead)
    (hstatement : ∀ p, statement s (depth + 1) ahead = .ok p → ¬Guarded p.reports)
    {r : Turn Node (Option Node) ahead} (hr : blockTurn s depth label close ahead = .ok r) :
    r.Unguarded := by
  obtain ⟨-, rfl⟩ | ⟨hne, ⟨-, rfl⟩ | ⟨-, p, hp, rfl⟩⟩ := blockTurn_eq_ok hr
  · exact not_guarded_nil
  · exact closingHeader_unguarded h
  · exact ⟨hstatement p hp, statement_length_lt s (depth + 1) hne hp⟩

/-! ## Statements -/

mutual

/-- A statement reaches no limit if there are levels and rounds for all of its tokens. -/
theorem statement_unguarded (depth : Nat) (ahead : List Token) (h : Ample s depth ahead)
    {p : Parsed Node ahead} (hp : statement s depth ahead = .ok p) : ¬Guarded p.reports := by
  obtain rfl | rfl | rfl | ⟨-, rfl⟩ | ⟨-, hp⟩ | ⟨-, rfl⟩ | rfl := statement_eq_ok s hp
  · exact unknown_unguarded ahead
  · exact not_guarded_nil
  · exact not_guarded_nil
  · exact assignment_unguarded h
  · exact oStatement_unguarded depth ahead h hp
  · exact not_guarded_append (commands_unguarded h) (unknown_unguarded _)
  · exact commands_unguarded h
termination_by (ahead.length, 1)
decreasing_by exact Prod.Lex.right _ (by omega)

theorem oStatement_unguarded (depth : Nat) (ahead : List Token) (h : Ample s depth ahead)
    {p : Parsed Node ahead} (hp : oStatement s depth ahead = .ok p) : ¬Guarded p.reports := by
  obtain ⟨hk, q, hq, rfl⟩ | ⟨-, rfl⟩ | rfl := oStatement_eq_ok hp
  · have hlt := length_keyworded_lt hk
    exact not_guarded_append (keyworded_unguarded h) (block_unguarded depth _ (h.deeper hlt) hq)
  · exact not_guarded_append (branched_unguarded h)
      (commands_unguarded (h.behind (branched s depth ahead)))
  · exact not_guarded_append (labelled_unguarded h)
      (commands_unguarded (h.behind (labelled s depth ahead)))
termination_by (ahead.length, 0)
decreasing_by exact Prod.Lex.left _ _ hlt

/-- The level of a block was paid for with the tokens in front of what is ahead. -/
theorem block_unguarded (depth : Nat) {oWord : Token} {label : Option Node} {keyword : Text}
    (ahead : List Token) (h : Ample s (depth + 1) ahead) {p : Parsed Node ahead}
    (hp : block s depth oWord label keyword ahead = .ok p) : ¬Guarded p.reports := by
  have hd : ¬s.maxDepth ≤ depth := by
    have hlevels := h.levels
    omega
  have houter : Ample s depth ahead := ⟨by have hlevels := h.levels; omega, h.rounds⟩
  obtain ⟨close, -, body, hbody, rfl⟩ := block_eq_ok s hd hp
  have hinside := h.behind (optionalBracket s depth ahead)
  have hturn : ∀ (ahead' : List Token) (_ : ahead' <:+ (optionalBracket s depth ahead).rest)
      (r : Turn Node (Option Node) ahead'), blockTurn s depth label close ahead' = .ok r →
      r.Unguarded := fun ahead' hsuffix r =>
    have hline := hinside.mono hsuffix.length_le
    blockTurn_unguarded hline fun _ => statement_unguarded (depth + 1) ahead' hline
  exact not_guarded_append (optionalBracket_unguarded houter) (finished_unguarded
    (turns_unguarded s _ hturn _ _ List.suffix_rfl (hinside.rounds.lt_toNat not_false) hbody))
termination_by (ahead.length, 2)
decreasing_by
  exact Prod.Lex.right' _ (Nat.le_trans (List.IsSuffix.length_le ‹_›) (Parsed.length_rest_le _))
    (by omega)

end

/-- Statements that are read one after the other reach no limit if there are levels and rounds for
all of their tokens. -/
theorem Steps.unguarded {nodes : List Node} {reports : List Report}
    (h : Steps s ahead nodes reports) (hample : Ample s 0 ahead) : ¬Guarded reports := by
  induction h with
  | nil => exact not_guarded_nil
  | @cons ahead p _ _ _ hp _ _ ih =>
    exact not_guarded_append (statement_unguarded 0 ahead hample hp) (ih (hample.behind p))

end Parse

/-! ## Programs -/

/-- The end mark that is put behind a token list, if any, is not read. -/
theorem length_readable_lt (tokens : List Token) (limits : Limits) :
    (Session.ofTokens tokens limits).readable.length < (withEndMark tokens).length := by
  obtain ⟨stop, more, htokens, -⟩ := exists_withEndMark_eq tokens limits
  rw [htokens, List.length_append, List.length_cons]
  omega

theorem length_withEndMark_le (tokens : List Token) :
    (withEndMark tokens).length ≤ tokens.length + 1 := by
  unfold withEndMark
  split
  · simp
  · split
    · omega
    · simp

/-- The limit on nesting is only a guard. If no limit is reached, the program and the reports are
the same for all greater limits; and none is reached if as many levels are allowed as there are
tokens. -/
theorem parse_maxDepth (tokens : List Token) (maxDepth : Int) :
    ∃ program reports, parse tokens ⟨none, maxDepth⟩ = .ok (program, reports) ∧
      (¬Guarded reports → ∀ deeper, maxDepth ≤ deeper →
        parse tokens ⟨none, deeper⟩ = .ok (program, reports)) ∧
      (tokens.length ≤ maxDepth → ¬Guarded reports) := by
  let session := Session.ofTokens tokens ⟨none, maxDepth⟩
  have hne : ∀ t ∈ session.readable, t.kind ≠ .endOfFile :=
    fun t ht => session.kind_ne_of_mem_readable ht
  have hreadable : session.readable.length < (withEndMark tokens).length :=
    length_readable_lt tokens ⟨none, maxDepth⟩
  have hrounds : (session.readable.length : Int) < session.setting.maxRounds := by
    have hmax : session.setting.maxRounds = (withEndMark tokens).length + 1 := rfl
    omega
  obtain ⟨nodes, reports, hsteps⟩ := Parse.exists_steps session.setting hne
  have hnodes : (nodes.length : Int) < session.setting.maxRounds := by
    have hlength := hsteps.length_le
    omega
  refine ⟨⟨nodes.map some⟩, reports, ?_, fun hguard deeper hle => ?_, fun hle => ?_⟩
  · rw [parse_eq_readable]
    exact hsteps.outcome_eq hnodes
  · let s' := (Session.ofTokens tokens ⟨none, deeper⟩).setting
    have hdeeper : Parse.Steps s' session.readable nodes reports :=
      hsteps.mono rfl hle (fun hg => absurd hg hguard) hrounds hrounds
    rw [parse_eq_readable]
    exact hdeeper.outcome_eq hnodes
  · refine hsteps.unguarded ⟨?_, fun _ => hrounds⟩
    have hmark := length_withEndMark_le tokens
    have hmax : session.setting.maxDepth = maxDepth := rfl
    omega

end Gcode
