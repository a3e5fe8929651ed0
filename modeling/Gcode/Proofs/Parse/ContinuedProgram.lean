import Gcode.Proofs.Parse.Continued
import Gcode.Proofs.Parse.OWord

/-!
# Reading statements on

Statements that are read with more behind them are read as before, as long as no loop is cut
short: a loop over commands ends at the line break that is behind, and a block that is closed is
closed by the same line. Only a block that is not closed goes on behind the line, and is reported
for it in the first parse.

## Main definitions

* `Continuation.CarriesOk` — the second parse comes to what the first comes to, if it succeeds.
* `Continuation.Lasts` — no loop over the tokens is cut short, in either parse.

## Main statements

* `Parse.turns_carried` — a loop whose turns are taken as before comes to the same.
* `Parse.statement_carried` — the statement is the same, whatever is behind the line.
-/

namespace Gcode

variable {α β γ δ ε σ τ : Type}

/-- What a turn reported. -/
def Turn.reports {ahead : List Token} : Turn α β ahead → List Report
  | .item p => p.reports
  | .done p => p.reports

namespace Continuation

variable (c : Continuation β)

/-- If the first parse does not give up and no report stands in the way, the second comes to the
same. -/
def CarriesOk (f : α → γ) {ahead ahead' : List Token} (x : Except (Halt ε) (Parsed α ahead))
    (y : Except (Halt ε) (Parsed α ahead')) : Prop :=
  ∀ p, x = .ok p → (∀ r ∈ p.reports, c.Permits r) → ∃ q, y = .ok q ∧ c.Agrees f p q

/-- What the second turn came to looks like what the first came to. -/
def TurnsAgree (f : α → γ) (g : σ → τ) {ahead ahead' : List Token} :
    Turn α σ ahead → Turn α σ ahead' → Prop
  | .item p, .item q => c.Agrees f p q
  | .done p, .done q => c.Agrees g p q
  | _, _ => False

/-- In both parses, a loop may take more rounds than there are tokens ahead. -/
structure Lasts (ahead : List Token) : Prop where
  before : (ahead.length : Int) < c.before.maxRounds
  after : (ahead.length : Int) < c.after.maxRounds

/-- The items of a loop and its result, looked at one by one. -/
def seenLoop (f : α → γ) (g : σ → τ) (v : List α × Option σ) : List γ × Option τ :=
  (v.1.map f, v.2.map g)

variable {c} {f : α → γ} {g : σ → τ} {ahead ahead' : List Token}

theorem Lasts.mono (h : c.Lasts ahead) (hle : ahead'.length ≤ ahead.length) : c.Lasts ahead' := by
  obtain ⟨hbefore, hafter⟩ := h
  exact ⟨by omega, by omega⟩

theorem CarriesOk.ok {p : Parsed α ahead} {q : Parsed α ahead'} (h : c.Carries f p q) :
    c.CarriesOk (ε := ε) f (.ok p) (.ok q) := by
  intro p' hp hpermits
  cases hp
  exact ⟨q, rfl, h hpermits⟩

theorem CarriesOk.tryBehind {p : Parsed α ahead} {q : Parsed α ahead'} (h : c.Carries f p q)
    {x : Except (Halt ε) (Parsed σ p.rest)} {y : Except (Halt ε) (Parsed σ q.rest)}
    (k : c.Agrees f p q → c.CarriesOk g x y) :
    c.CarriesOk g (p.tryBehind x) (q.tryBehind y) := by
  intro p' hp hpermits
  obtain ⟨r, rfl, rfl⟩ := Parsed.tryBehind_eq_ok hp
  obtain ⟨hfirst, hsecond⟩ := List.forall_mem_append.mp hpermits
  obtain ⟨r', hr', hagrees⟩ := k (h hfirst) r rfl hsecond
  exact ⟨q.behind r', Parsed.tryBehind_ok q hr', (h hfirst).behind hagrees⟩

end Continuation

namespace Parse

variable (c : Continuation β)

open Continuation (Agrees Carries CarriesOk Lasts seenLoop)
open Node (relined relined?)

/-! ## Loops -/

section Loop

variable {f : α → γ} {g : σ → τ} {D : σ → Prop} (place : Text) {start start' : List Token}
  {turn : (ahead : List Token) → ahead <:+ start → Except (Halt ε) (Turn α σ ahead)}
  {turn' : (ahead : List Token) → ahead <:+ start' → Except (Halt ε) (Turn α σ ahead)}

/-- A loop takes the same turns with more behind the tokens, if its turns come to the same and
every item takes a token. What it comes to has the property `D`, under which the last turns
agree. -/
theorem turns_carried
    (hitem : ∀ ahead h p, turn ahead h = .ok (.item p) → p.rest.length < ahead.length)
    (hturn : ∀ ahead h h' r, turn ahead h = .ok r → (∀ x ∈ r.reports, c.Permits x) →
      r.Holds (fun _ => True) D →
        ∃ r', turn' (ahead ++ c.tail) h' = .ok r' ∧ c.TurnsAgree f g r r')
    {n m : Nat} {ahead : List Token} (h : ahead <:+ start) (h' : ahead ++ c.tail <:+ start')
    (hn : ahead.length < n) (hm : ahead.length < m) {p : Parsed (List α × Option σ) ahead}
    (hp : turns c.before place start turn n ahead h = .ok p)
    (hpermits : ∀ x ∈ p.reports, c.Permits x) (hdone : ∀ result ∈ p.value.2, D result) :
    ∃ q, turns c.after place start' turn' m (ahead ++ c.tail) h' = .ok q ∧
      c.Agrees (seenLoop f g) p q := by
  induction n generalizing m ahead with
  | zero => exact absurd hn (Nat.not_lt_zero _)
  | succ n ih =>
    obtain ⟨m, rfl⟩ := Nat.exists_eq_succ_of_ne_zero (Nat.ne_zero_of_lt hm)
    obtain ⟨q, hq, rfl⟩ | ⟨q, hq, hstall, -⟩ | ⟨q, last, hq, hlt, hlast, rfl⟩ :=
      turns_succ_eq_ok hp
    · obtain ⟨_ | q', hr', hagree⟩ := hturn ahead h h' _ hq hpermits (hdone _ rfl)
      · exact hagree.elim
      · have hresult : c.Agrees g q q' := hagree
        exact ⟨_, turns_of_done hr', hresult.map fun hv => congrArg (fun x => ([], some x)) hv⟩
    · exact absurd hstall (Nat.ne_of_lt (hitem ahead h q hq))
    · obtain ⟨hfirst, hsecond⟩ := List.forall_mem_append.mp hpermits
      obtain ⟨q' | _, hr', hagree⟩ := hturn ahead h h' _ hq hfirst trivial
      · have hfound : c.Agrees f q q' := hagree
        have hlt' : q'.rest.length < (ahead ++ c.tail).length := by
          rw [hfound.rest_eq, List.length_append, List.length_append]
          omega
        have hsuffix : q.rest ++ c.tail <:+ start' := by
          rw [← hfound.rest_eq]
          exact q'.suffix.trans h'
        obtain ⟨last', hlast', hlastAgrees⟩ := ih (m := m) (q.suffix.trans h) hsuffix (by omega)
          (by omega) hlast hsecond hdone
        rw [turns_of_item hr' hlt']
        obtain ⟨q', rest', reports', hq'⟩ := q'
        obtain ⟨hvalue, rfl, hreports⟩ := hfound
        refine ⟨_, Parsed.tryBehind_ok _ (map_eq_ok.mpr ⟨last', hlast', rfl⟩), ?_⟩
        refine Agrees.behind ⟨hvalue, rfl, hreports⟩ (hlastAgrees.map fun hv => ?_)
        simp only [seenLoop, Prod.mk.injEq, List.map_cons, List.cons.injEq] at hv ⊢
        exact ⟨⟨hvalue, hv.1⟩, hv.2⟩
      · exact hagree.elim

/-- The same of a loop whose turns cannot give up. -/
theorem steadyLoop_carried {turn turn' : (ahead : List Token) → Turn α σ ahead}
    (hitem : ∀ ahead p, turn ahead = .item p → p.rest.length < ahead.length)
    (hturn : ∀ ahead, (∀ x ∈ (turn ahead).reports, c.Permits x) →
      c.TurnsAgree f g (turn ahead) (turn' (ahead ++ c.tail)))
    (hlasts : c.Lasts start) :
    c.Carries (seenLoop f g) (steadyLoop c.before place start turn)
      (steadyLoop c.after place (start ++ c.tail) turn') := by
  have hturn' : ∀ (ahead : List Token) (_ : ahead <:+ start)
      (_ : ahead ++ c.tail <:+ start ++ c.tail) (r : Turn α σ ahead),
      (.ok (turn ahead) : Except (Halt Empty) _) = .ok r →
      (∀ x ∈ r.reports, c.Permits x) → r.Holds (fun _ => True) (fun _ => True) →
        ∃ r', (.ok (turn' (ahead ++ c.tail)) : Except (Halt Empty) _) = .ok r' ∧
          c.TurnsAgree f g r r' := by
    intro ahead _ _ r hr hpermits _
    cases hr
    exact ⟨_, rfl, hturn ahead hpermits⟩
  obtain ⟨hbefore, hafter⟩ := hlasts
  intro hpermits
  have hloop : ∃ q, loop c.after place (start ++ c.tail) (fun ahead _ =>
      (.ok (turn' ahead) : Except (Halt Empty) _)) = .ok q ∧
      c.Agrees (seenLoop f g) (steadyLoop c.before place start turn) q :=
    turns_carried c place (fun ahead _ p hp => hitem ahead p (Except.ok.inj hp)) hturn'
      List.suffix_rfl List.suffix_rfl (by omega) (by omega)
      (loop_eq_steadyLoop c.before place turn) hpermits (fun _ _ => trivial)
  obtain ⟨q, hq, hagrees⟩ := hloop
  obtain rfl := Except.ok.inj ((loop_eq_steadyLoop c.after place turn').symm.trans hq)
  exact hagrees

end Loop

/-! ## Lines of commands -/

theorem startsValue_append (ahead : List Token) :
    startsValue (current c.after (ahead ++ c.tail)) = startsValue (current c.before ahead) := by
  cases ahead with
  | nil =>
    have hbefore : startsValue (current c.before []) = false := rfl
    rw [hbefore]
    rcases kind_of_atLineEnd c.after c.atLineEnd with hk | hk <;>
      simp [startsValue, isSign, hk]
  | cons t rest => rfl

theorem wordWithValue_carried (depth : Nat) {ahead : List Token} (hne : ahead ≠ []) :
    c.Carries (relined c.line) (wordWithValue c.before depth ahead)
      (wordWithValue c.after depth (ahead ++ c.tail)) := by
  have hletter := advance_carried c hne
  have hvalue : (advance c.after (ahead ++ c.tail)).value = (advance c.before ahead).value :=
    hletter.value_eq
  have hmore : c.Carries (relined? c.line)
      (if startsValue (current c.before (advance c.before ahead).rest) then
        value c.before depth (advance c.before ahead).rest
      else Parsed.pure none (advance c.before ahead).rest)
      (if startsValue (current c.after (advance c.after (ahead ++ c.tail)).rest) then
        value c.after depth (advance c.after (ahead ++ c.tail)).rest
      else Parsed.pure none (advance c.after (ahead ++ c.tail)).rest) := by
    rw [hletter.rest_eq, startsValue_append]
    split
    · exact value_carried c depth _
    · exact fun _ => .pure rfl
  rw [wordWithValue, wordWithValue]
  refine (Carries.behindAgrees hletter hmore).map fun hv => ?_
  rw [hvalue, relined, relined, hv]

theorem command_carried (depth : Nat) {ahead : List Token} (hne : ahead ≠ []) :
    c.Carries (relined c.line) (command c.before depth ahead)
      (command c.after depth (ahead ++ c.tail)) := by
  rw [command, command, current_append c hne]
  split
  · exact wordWithValue_carried c depth hne
  case h_2 hk => exact bracketed_carried c depth hk
  · exact functionCall_carried c depth hne
  · exact fun _ => unknown_carried c hne

theorem comment_carried {ahead : List Token} (hne : ahead ≠ []) :
    c.Agrees (relined c.line) (comment c.before ahead) (comment c.after (ahead ++ c.tail)) :=
  (advance_carried c hne).map fun hv => congrArg (fun t : Token => Node.comment t.value) hv

theorem lineBreak_carried {ahead : List Token} (hne : ahead ≠ []) :
    c.Agrees (relined c.line) (lineBreak c.before ahead)
      (lineBreak c.after (ahead ++ c.tail)) :=
  (advance_carried c hne).map fun hv => congrArg (fun t : Token => Node.endOfLine t.value) hv

theorem commandTurn_carried (depth : Nat) (ahead : List Token)
    (hpermits : ∀ x ∈ (commandTurn c.before depth ahead).reports, c.Permits x) :
    c.TurnsAgree (relined c.line) id (commandTurn c.before depth ahead)
      (commandTurn c.after depth (ahead ++ c.tail)) := by
  rw [commandTurn] at hpermits ⊢
  rw [commandTurn, endsCommands_append]
  by_cases hend : endsCommands c.before ahead = true
  · rw [if_pos hend, if_pos hend]
    exact Agrees.pure rfl
  · have hne : ahead ≠ [] := by
      rintro rfl
      exact hend rfl
    rw [if_neg hend] at hpermits ⊢
    rw [if_neg hend, current_append c hne]
    by_cases hk : (current c.before ahead).kind = .comment
    · rw [if_pos hk, if_pos hk]
      exact comment_carried c hne
    · rw [if_neg hk] at hpermits ⊢
      rw [if_neg hk]
      exact command_carried c depth hne hpermits

/-- Every command takes a token. -/
theorem commandTurn_length_lt (s : Setting) (depth : Nat) {ahead : List Token}
    {p : Parsed Node ahead} (h : commandTurn s depth ahead = .item p) :
    p.rest.length < ahead.length := by
  have hreads := @commandTurn_reads s True depth ahead
  rw [h] at hreads
  exact (hreads fun _ => trivial).length_lt

/-- A line of commands is read as before. -/
theorem commands_carried (depth : Nat) {ahead : List Token} (hlasts : c.Lasts ahead) :
    c.Carries (List.map (relined c.line)) (commands c.before depth ahead)
      (commands c.after depth (ahead ++ c.tail)) := by
  have hloop := steadyLoop_carried c "command line"
    (fun ahead p => commandTurn_length_lt c.before depth) (commandTurn_carried c depth) hlasts
  exact hloop.map fun hv => congrArg Prod.fst hv

theorem commandLine_carried (depth : Nat) {ahead : List Token} (hlasts : c.Lasts ahead) :
    c.Carries (relined c.line) (commandLine c.before depth ahead)
      (commandLine c.after depth (ahead ++ c.tail)) := by
  refine (commands_carried c depth hlasts).map fun hv => ?_
  rw [relined, relined, Node.relinedOf_map_some, Node.relinedOf_map_some, hv]

/-! ## Assignments and headers -/

theorem assignment_carried (depth : Nat) {ahead : List Token}
    (h : startsAssignment c.before ahead = true) :
    c.Carries (relined c.line) (assignment c.before depth ahead)
      (assignment c.after depth (ahead ++ c.tail)) := by
  rw [startsAssignment, Bool.and_eq_true, decide_eq_true_eq] at h
  have hne : ahead ≠ [] := ne_nil_of_kind (s := c.before) h.1 (by decide)
  have htarget := advance_carried c hne
  have hexpect := @expect_carried _ c .assign (by decide) (by decide)
    (advance c.before ahead).rest
  rw [← htarget.rest_eq] at hexpect
  have hsign := htarget.behind hexpect
  have hvalue := value_carried c depth (((advance c.before ahead).behind
    (expect c.before .assign (advance c.before ahead).rest)).rest)
  rw [← hsign.rest_eq] at hvalue
  have hname : (advance c.after (ahead ++ c.tail)).value = (advance c.before ahead).value :=
    htarget.value_eq
  refine (Carries.behindAgrees hsign hvalue).map fun hv => ?_
  rw [hname, relined, relined, hv]

theorem flatStatement_carried (depth : Nat) {header header' : Node}
    (hheader : relined c.line header' = relined c.line header) {ahead : List Token}
    (hlasts : c.Lasts ahead) :
    c.Carries (relined c.line) (flatStatement c.before depth header ahead)
      (flatStatement c.after depth header' (ahead ++ c.tail)) := by
  refine (commandLine_carried c depth hlasts).map fun hv => ?_
  rw [relined, relined, Node.relined?_some, Node.relined?_some, Node.relined?_some,
    Node.relined?_some, hheader, hv]

theorem branchCondition_carried (depth : Nat) (keyword : Text) (ahead : List Token) :
    c.Carries (relined? c.line) (branchCondition c.before depth keyword ahead)
      (branchCondition c.after depth keyword (ahead ++ c.tail)) := by
  rw [branchCondition, branchCondition]
  split
  · exact optionalBracket_carried c depth ahead
  · exact fun _ => .pure rfl

theorem header_relined {g : Int → Int} {oWord oWord' keyword keyword' : Text}
    {label label' condition condition' : Option Node} (hname : oWord' = oWord)
    (hlabel : relined? g label' = relined? g label) (hkeyword : keyword' = keyword)
    (hcondition : relined? g condition' = relined? g condition) :
    relined g (.header oWord' label' keyword' condition') =
      relined g (.header oWord label keyword condition) := by
  rw [relined, relined, hname, hlabel, hkeyword, hcondition]

/-! ## O-word lines -/

theorem labelAhead_carried (depth : Nat) {ahead : List Token} (hne : ahead ≠ []) :
    c.Carries (relined? c.line) (labelAhead c.before depth ahead)
      (labelAhead c.after depth (ahead ++ c.tail)) := by
  rw [labelAhead, labelAhead, (advance_carried c hne).rest_eq]
  exact value_carried c depth _

/-- The keyword of an o-word line is read as before. -/
theorem keywordAhead_carried {depth : Nat} {ahead : List Token}
    (hlabel : c.Agrees (relined? c.line) (labelAhead c.before depth ahead)
      (labelAhead c.after depth (ahead ++ c.tail)))
    (hk : (keywordAhead c.before depth ahead).kind = .flow) :
    keywordAhead c.after depth (ahead ++ c.tail) = keywordAhead c.before depth ahead := by
  rw [keywordAhead, keywordAhead, hlabel.rest_eq]
  exact current_append c (ne_nil_of_kind (s := c.before) hk (by decide))

/-- There is a keyword where there was one before. -/
theorem kind_keywordAhead {depth : Nat} {ahead : List Token}
    (hlabel : c.Agrees (relined? c.line) (labelAhead c.before depth ahead)
      (labelAhead c.after depth (ahead ++ c.tail))) :
    (keywordAhead c.after depth (ahead ++ c.tail)).kind = .flow ↔
      (keywordAhead c.before depth ahead).kind = .flow := by
  rw [keywordAhead, keywordAhead, hlabel.rest_eq]
  exact kind_current c (by decide) (by decide) _

theorem labelled_carried {depth : Nat} {ahead : List Token} (hne : ahead ≠ [])
    (hlabel : c.Agrees (relined? c.line) (labelAhead c.before depth ahead)
      (labelAhead c.after depth (ahead ++ c.tail))) :
    c.Agrees (relined? c.line) (labelled c.before depth ahead)
      (labelled c.after depth (ahead ++ c.tail)) := (advance_carried c hne).behind hlabel

theorem keyworded_carried {depth : Nat} {ahead : List Token} (hne : ahead ≠ [])
    (hlabel : c.Agrees (relined? c.line) (labelAhead c.before depth ahead)
      (labelAhead c.after depth (ahead ++ c.tail)))
    (hk : (keywordAhead c.before depth ahead).kind = .flow) :
    c.Agrees id (keyworded c.before depth ahead) (keyworded c.after depth (ahead ++ c.tail)) := by
  have hlabelled := labelled_carried c hne hlabel
  have hrest : (labelled c.before depth ahead).rest ≠ [] :=
    ne_nil_of_kind (s := c.before) hk (by decide)
  refine hlabelled.behind ?_
  rw [hlabelled.rest_eq]
  exact advance_carried c hrest

theorem branched_carried {depth : Nat} {ahead : List Token}
    (hlabel : c.Agrees (relined? c.line) (labelAhead c.before depth ahead)
      (labelAhead c.after depth (ahead ++ c.tail)))
    (hkeyworded : c.Agrees id (keyworded c.before depth ahead)
      (keyworded c.after depth (ahead ++ c.tail)))
    (hk : (keywordAhead c.before depth ahead).kind = .flow) :
    c.Carries (relined? c.line) (branched c.before depth ahead)
      (branched c.after depth (ahead ++ c.tail)) := by
  refine Carries.behindAgrees hkeyworded ?_
  rw [hkeyworded.rest_eq, keywordAhead_carried c hlabel hk]
  exact branchCondition_carried c depth _ _

/-- A block is closed at the same line. -/
theorem closesHere_carried (depth : Nat) {label label' : Option Node}
    (hlabel : relined? c.line label' = relined? c.line label) {close : Text} {ahead : List Token}
    (hne : ahead ≠ []) (hpermits : isOWord (current c.before ahead) = true →
      ∀ r ∈ (labelAhead c.before depth ahead).reports, c.Permits r) {b : Bool}
    (h : closesHere c.before depth label close ahead = .ok b) :
    closesHere c.after depth label' close (ahead ++ c.tail) = .ok b := by
  rw [closesHere_eq] at h ⊢
  rw [current_append c hne]
  by_cases ho : isOWord (current c.before ahead) = true
  · have hagrees := labelAhead_carried c depth hne (hpermits ho)
    have hkind := kind_keywordAhead c hagrees
    by_cases hk : (keywordAhead c.before depth ahead).kind = .flow
    · rw [keywordAhead_carried c hagrees hk]
      split at h
      case isTrue hcloses =>
        rw [if_pos hcloses]
        rw [← Node.labelsMatch_relined c.line] at h ⊢
        rwa [hlabel, hagrees.value_eq]
      case isFalse hcloses =>
        rw [if_neg hcloses]
        exact h
    · rw [if_neg (by simp [hk])] at h
      rw [if_neg (by simp [mt hkind.mp hk])]
      exact h
  · rw [if_neg (by simp [ho])] at h ⊢
    exact h

/-- The line that closes a block is read as before. -/
theorem closingHeader_carried (depth : Nat) {label : Option Node} {close : Text}
    {ahead : List Token} (hne : ahead ≠ [])
    (h : closesHere c.before depth label close ahead = .ok true) :
    c.Carries (relined c.line) (closingHeader c.before depth ahead)
      (closingHeader c.after depth (ahead ++ c.tail)) := by
  obtain ⟨-, hk, -, -⟩ := closesHere_eq_true h
  rw [closingHeader_eq, closingHeader_eq]
  intro hpermits
  have hlabel := labelAhead_carried c depth hne fun r hr =>
    hpermits r (List.mem_append_left _ (labelAhead_subset_keyworded c.before depth ahead hr))
  have hkeyworded := keyworded_carried c hne hlabel hk
  have hcondition := optionalBracket_carried c depth (keyworded c.before depth ahead).rest
  rw [← hkeyworded.rest_eq] at hcondition
  refine (Carries.behindAgrees hkeyworded hcondition hpermits).map fun hv => ?_
  rw [current_append c hne, keywordAhead_carried c hlabel hk]
  exact header_relined rfl hlabel.value_eq rfl hv

/-! ## Blocks -/

/-- A line without commands leaves all tokens. -/
theorem rest_commands (s : Setting) (depth : Nat) {ahead : List Token}
    (h : (commands s depth ahead).value = []) : (commands s depth ahead).rest = ahead := by
  have hreads := @commands_reads s True depth ahead fun _ => trivial
  rw [h] at hreads
  generalize (commands s depth ahead).rest = rest at hreads ⊢
  cases hreads
  rfl

theorem join_relined {g : Int → Int} {a b : Option (Option Node)}
    (h : a.map (relined? g) = b.map (relined? g)) : relined? g a.join = relined? g b.join := by
  rcases a with _ | a <;> rcases b with _ | b
  · rfl
  · cases h
  · cases h
  · exact Option.some.inj h

/-- A block is made as before of what its loop came to. -/
theorem finished_carried (oWord : Token) {label label' : Option Node}
    (hlabel : relined? c.line label' = relined? c.line label) (keyword close : Text)
    {condition condition' : Option Node}
    (hcondition : relined? c.line condition' = relined? c.line condition)
    {ahead ahead' : List Token} {body : Parsed (List Node × Option (Option Node)) ahead}
    {body' : Parsed (List Node × Option (Option Node)) ahead'}
    (h : c.Agrees (seenLoop (relined c.line) (relined? c.line)) body body') :
    c.Agrees (relined c.line) (finished oWord label keyword close condition body)
      (finished oWord label' keyword close condition' body') := by
  obtain ⟨hitems, hresult⟩ := Prod.mk.inj h.value_eq
  have hclosing := join_relined hresult
  have hnode : relined c.line (.block keyword (some (.header oWord.value label' keyword condition'))
      (body'.value.1.map some) body'.value.2.join) =
      relined c.line (.block keyword (some (.header oWord.value label keyword condition))
        (body.value.1.map some) body.value.2.join) := by
    rw [relined, relined, Node.relinedOf_map_some, Node.relinedOf_map_some, hitems, hclosing,
      Node.relined?_some, Node.relined?_some, header_relined rfl hlabel rfl hcondition]
  have hsome : body'.value.2.join.isSome = body.value.2.join.isSome := by
    rw [← Node.isSome_relined? c.line, hclosing, Node.isSome_relined?]
  have hstart : Node.describedLabel label' = Node.describedLabel label := by
    rw [← Node.describedLabel_relined c.line, hlabel, Node.describedLabel_relined]
  rw [finished, finished]
  dsimp only
  rw [hsome, hstart]
  split
  · exact h.map fun _ => hnode
  · refine h.behind ?_
    rw [h.rest_eq]
    exact .reporting hnode rfl

/-- Every statement of a block takes a token. -/
theorem blockTurn_length_lt (s : Setting) {depth : Nat} {label : Option Node} {close : Text}
    {ahead : List Token} {p : Parsed Node ahead}
    (h : blockTurn s depth label close ahead = .ok (.item p)) : p.rest.length < ahead.length := by
  obtain ⟨-, hr⟩ | ⟨hne, ⟨-, hr⟩ | ⟨-, q, hq, hr⟩⟩ := blockTurn_eq_ok h
  · cases hr
  · cases hr
  · cases hr
    exact statement_length_lt s (depth + 1) hne hq

/-- A turn of a block is taken as before, if its statements are read as before, unless nothing
closes the block. -/
theorem blockTurn_carried {depth : Nat} {label label' : Option Node}
    (hlabel : relined? c.line label' = relined? c.line label) {close : Text} {ahead : List Token}
    (hstatement : ahead ≠ [] → c.CarriesOk (relined c.line) (statement c.before (depth + 1) ahead)
      (statement c.after (depth + 1) (ahead ++ c.tail)))
    {r : Turn Node (Option Node) ahead} (hr : blockTurn c.before depth label close ahead = .ok r)
    (hpermits : ∀ x ∈ r.reports, c.Permits x)
    (hdone : r.Holds (fun _ => True) fun closing => closing = none → c.tail = []) :
    ∃ r', blockTurn c.after depth label' close (ahead ++ c.tail) = .ok r' ∧
      c.TurnsAgree (relined c.line) (relined? c.line) r r' := by
  obtain ⟨hend, rfl⟩ | ⟨hend, hturn⟩ := blockTurn_eq_ok hr
  · have hend' : (current c.after (ahead ++ c.tail)).kind = .endOfFile := by
      cases ahead with
      | nil =>
        rw [hdone rfl]
        rfl
      | cons t rest => exact hend
    exact ⟨_, blockTurn_ended hend', Agrees.pure rfl⟩
  have hne : ahead ≠ [] := ne_nil_of_current hend
  have hend' : (current c.after (ahead ++ c.tail)).kind ≠ .endOfFile := by
    rwa [current_append c hne]
  -- The label was read to see whether the line closes the block; whatever reads the line reads it
  -- once more, and reports the same.
  obtain ⟨hcloses, rfl⟩ | ⟨hopen, p, hp, rfl⟩ := hturn
  · have hlabels : isOWord (current c.before ahead) = true →
        ∀ x ∈ (labelAhead c.before (depth + 1) ahead).reports, c.Permits x := fun _ x hx =>
      hpermits x (List.mem_append_left _
        (labelAhead_subset_keyworded c.before (depth + 1) ahead hx))
    have hheader := closingHeader_carried c (depth + 1) hne hcloses hpermits
    have hcloses' := closesHere_carried c (depth + 1) hlabel hne hlabels hcloses
    exact ⟨_, blockTurn_closed hend' hcloses', hheader.map fun hv => congrArg some hv⟩
  · have hlabels : isOWord (current c.before ahead) = true →
        ∀ x ∈ (labelAhead c.before (depth + 1) ahead).reports, c.Permits x := fun ho x hx =>
      hpermits x (labelAhead_reports_subset (statement_eq_oStatement ho ▸ hp) hx)
    obtain ⟨q, hq, hagrees⟩ := hstatement hne p hp hpermits
    have hopen' := closesHere_carried c (depth + 1) hlabel hne hlabels hopen
    exact ⟨_, blockTurn_open hend' hopen' hq, hagrees⟩

/-! ## Statements -/

mutual

/-- A statement is read as before. -/
theorem statement_carried (depth : Nat) {ahead : List Token} (hne : ahead ≠ [])
    (hlasts : c.Lasts ahead) :
    c.CarriesOk (relined c.line) (statement c.before depth ahead)
      (statement c.after depth (ahead ++ c.tail)) := by
  have hline := commands_carried c depth hlasts
  rw [statement, statement]
  dsimp only
  rw [current_append c hne, startsAssignment_append]
  split
  · exact .ok fun _ => unknown_carried c hne
  split
  · exact .ok fun _ => lineBreak_carried c hne
  split
  · exact .ok fun _ => comment_carried c hne
  split
  case isTrue ha => exact .ok (assignment_carried c depth ha)
  split
  · exact oStatement_carried depth hne hlasts
  have hempty : c.Agrees (List.map (relined c.line)) (commands c.before depth ahead)
      (commands c.after depth (ahead ++ c.tail)) →
      (commands c.after depth (ahead ++ c.tail)).value.isEmpty =
        (commands c.before depth ahead).value.isEmpty := by
    intro hagrees
    have hitems := congrArg List.isEmpty hagrees.value_eq
    rwa [List.isEmpty_map, List.isEmpty_map] at hitems
  intro p hp hpermits
  split at hp
  case isTrue hnone =>
    cases hp
    have hagrees := hline (List.forall_mem_append.mp hpermits).1
    rw [hempty hagrees, if_pos hnone]
    refine ⟨_, rfl, hagrees.behind ?_⟩
    rw [hagrees.rest_eq]
    refine unknown_carried c ?_
    rwa [rest_commands c.before depth (List.isEmpty_iff.mp hnone)]
  case isFalse hsome =>
    cases hp
    have hagrees := hline hpermits
    rw [hempty hagrees, if_neg hsome]
    refine ⟨_, rfl, hagrees.map fun hv => ?_⟩
    rw [relined, relined, Node.relinedOf_map_some, Node.relinedOf_map_some, hv]
termination_by (ahead.length, 1)
decreasing_by exact Prod.Lex.right _ (by omega)

theorem oStatement_carried (depth : Nat) {ahead : List Token} (hne : ahead ≠ [])
    (hlasts : c.Lasts ahead) :
    c.CarriesOk (relined c.line) (oStatement c.before depth ahead)
      (oStatement c.after depth (ahead ++ c.tail)) := by
  intro p hp hpermits
  have hlabel := labelAhead_carried c depth hne fun r hr =>
    hpermits r (labelAhead_reports_subset hp hr)
  have hname := current_append c hne
  by_cases hk : (keywordAhead c.before depth ahead).kind = .flow
  · have hlt := length_keyworded_lt hk
    have hkeyworded := keyworded_carried c hne hlabel hk
    have hk' := (kind_keywordAhead c hlabel).mpr hk
    have hkeyword := keywordAhead_carried c hlabel hk
    by_cases hopens :
        (Keyword.closing? (Text.upper (keywordAhead c.before depth ahead).value)).isSome = true
    · rw [oStatement_opens hk hopens] at hp
      rw [oStatement_opens hk' (by rwa [hkeyword]), hkeyword, hname]
      refine CarriesOk.tryBehind (fun _ => hkeyworded) (fun _ => ?_) p hp hpermits
      rw [hkeyworded.rest_eq]
      exact block_carried depth _ hlabel.value_eq _ (hlasts.mono (Nat.le_of_lt hlt))
    · rw [oStatement_branch hk hopens] at hp
      rw [oStatement_branch hk' (by rwa [hkeyword]), hkeyword, hname]
      cases hp
      have hbranched := branched_carried c hlabel hkeyworded hk
      refine ⟨_, rfl, hbranched.behind (fun hagrees => ?_) hpermits⟩
      rw [hagrees.rest_eq]
      exact flatStatement_carried c depth (header_relined rfl hlabel.value_eq rfl hagrees.value_eq)
        (hlasts.mono (Parsed.length_rest_le _))
  · rw [oStatement_bare hk] at hp
    rw [oStatement_bare (mt (kind_keywordAhead c hlabel).mp hk), hname]
    cases hp
    have hlabelled := labelled_carried c hne hlabel
    refine ⟨_, rfl, Carries.behindAgrees hlabelled ?_ hpermits⟩
    rw [hlabelled.rest_eq]
    exact flatStatement_carried c depth (header_relined rfl hlabel.value_eq rfl rfl)
      (hlasts.mono (Parsed.length_rest_le _))
termination_by (ahead.length, 0)
decreasing_by exact Prod.Lex.left _ _ hlt

theorem block_carried (depth : Nat) (oWord : Token) {label label' : Option Node}
    (hlabel : relined? c.line label' = relined? c.line label) (keyword : Text)
    {ahead : List Token} (hlasts : c.Lasts ahead) :
    c.CarriesOk (relined c.line) (block c.before depth oWord label keyword ahead)
      (block c.after depth oWord label' keyword (ahead ++ c.tail)) := by
  have hcondition := optionalBracket_carried c depth ahead
  have hle := (optionalBracket c.before depth ahead).length_rest_le
  have hdepth := c.depth_le
  by_cases hd : c.before.maxDepth ≤ depth
  · intro p hp hpermits
    rw [block_of_le c.before hd] at hp
    cases hp
    obtain ⟨hfirst, hsecond⟩ := List.forall_mem_append.mp hpermits
    obtain ⟨hpermit, hmore⟩ := List.forall_mem_cons.mp hsecond
    have hagrees := hcondition hfirst
    have hroom := hpermit.depth_eq rfl
    rw [block_of_le c.after (by omega)]
    refine ⟨_, rfl, hagrees.behind (Agrees.withReport ?_ (by rw [hroom]))⟩
    rw [hagrees.rest_eq]
    exact flatStatement_carried c depth (header_relined rfl hlabel rfl hagrees.value_eq)
      (hlasts.mono hle) hmore
  · intro p hp hpermits
    obtain ⟨close, hclose, body, hbody, rfl⟩ := block_eq_ok c.before hd hp
    obtain ⟨hfirst, hsecond⟩ := List.forall_mem_append.mp hpermits
    have hagrees := hcondition hfirst
    have hbodyPermits : ∀ r ∈ body.reports, c.Permits r := by
      intro r hr
      refine hsecond r ?_
      rw [finished]
      dsimp only
      split
      · exact hr
      · exact List.mem_append_left _ hr
    have hdone : ∀ result ∈ body.value.2, result = none → c.tail = [] := by
      rintro _ hresult rfl
      have hnone : body.value.2.join = none := by rw [hresult]; rfl
      refine (hsecond ⟨.unclosedBlock (oWord.value ++ Node.describedLabel label) keyword close,
        oWord.line⟩ ?_).tail_eq rfl
      simp [finished, hnone, Parsed.behind, Parsed.reporting]
    have hturn : ∀ (ahead' : List Token)
        (_ : ahead' <:+ (optionalBracket c.before depth ahead).rest)
        (_ : ahead' ++ c.tail <:+ (optionalBracket c.before depth ahead).rest ++ c.tail)
        (r : Turn Node (Option Node) ahead'),
        blockTurn c.before depth label close ahead' = .ok r → (∀ x ∈ r.reports, c.Permits x) →
        r.Holds (fun _ => True) (fun closing => closing = none → c.tail = []) →
        ∃ r', blockTurn c.after depth label' close (ahead' ++ c.tail) = .ok r' ∧
          c.TurnsAgree (relined c.line) (relined? c.line) r r' :=
      fun ahead' hsuffix _ r hr => blockTurn_carried c hlabel (fun hne =>
        statement_carried (depth + 1) hne
          (hlasts.mono (Nat.le_trans hsuffix.length_le hle))) hr
    obtain ⟨hrounds, hrounds'⟩ := hlasts.mono hle
    have hloop : ∃ body', loop c.after (keyword ++ " block")
        ((optionalBracket c.before depth ahead).rest ++ c.tail)
        (fun ahead _ => blockTurn c.after depth label' close ahead) = .ok body' ∧
        c.Agrees (seenLoop (relined c.line) (relined? c.line)) body body' :=
      turns_carried c _ (fun ahead' _ p hp => blockTurn_length_lt c.before hp) hturn
        List.suffix_rfl List.suffix_rfl (by omega) (by omega) hbody hbodyPermits hdone
    rw [← hagrees.rest_eq] at hloop
    obtain ⟨body', hbody', hseen⟩ := hloop
    rw [block_eq_loop c.after (by omega) oWord label' hclose, hbody']
    refine ⟨_, rfl, hagrees.behind ?_⟩
    exact finished_carried c oWord hlabel keyword close hagrees.value_eq hseen
termination_by (ahead.length, 2)
decreasing_by
  exact Prod.Lex.right' _ (Nat.le_trans hsuffix.length_le hle) (by omega)

end

end Parse

end Gcode
