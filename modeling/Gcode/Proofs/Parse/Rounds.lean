import Gcode.Proofs.Parse.ContinuedProgram
import Gcode.Proofs.Parse.Steps
import Gcode.Proofs.Parse.ToldProgram

/-!
# Enough rounds

Every statement, command and block takes a token, so a loop that may take more rounds than there
are tokens is never stopped by its guards, and how many more rounds it may take does not matter.
A program that is read to the end is made of statements that are read one after the other, and
tokens behind a line break do not change what is read before them.

## Main definitions

* `LoopsOnly` — a guard of a loop is reported only if `short` holds.

## Main statements

* `Parse.exists_steps` — all tokens can be read as statements, one after the other.
* `Parse.Steps.carried` — statements are read as before, whatever is behind the line.
* `Parse.Steps.mono` — the rounds that are allowed do not matter, nor does deeper nesting.
* `parse_unhalted` — no loop of a parse is stopped by a guard, unless it is told to.
-/

namespace Gcode

/-! ## Guards of loops -/

/-- A guard of a loop is reported only if `short` holds. -/
def LoopsOnly (short : Prop) (rs : List Report) : Prop :=
  ∀ r ∈ rs, r.problem.isOfLoop = true → short

@[simp] theorem loopsOnly_nil (short : Prop) : LoopsOnly short [] := fun _ h => by cases h

@[simp] theorem loopsOnly_append {short : Prop} {rs ss : List Report} :
    LoopsOnly short (rs ++ ss) ↔ LoopsOnly short rs ∧ LoopsOnly short ss :=
  List.forall_mem_append

theorem loopsOnly_singleton {short : Prop} {r : Report}
    (h : r.problem.isOfLoop = true → short) : LoopsOnly short [r] :=
  List.forall_mem_singleton.mpr h

theorem OnlyLimits.loopsOnly {short : Prop} {rs : List Report} (h : OnlyLimits short rs) :
    LoopsOnly short rs := fun r hr => (h r hr).short_of

namespace Told

variable {short : Prop}

theorem Expression.loopsOnly {n : Option Node} {rs : List Report} (h : Expression n rs) :
    LoopsOnly short rs := by
  induction h with
  | missing => exact loopsOnly_singleton fun h => by cases h
  | number | parameter | word | bareCall => exact loopsOnly_nil short
  | call _ _ ih | unary _ _ ih | closed _ ih => exact ih
  | binary _ _ _ ihl ihr => exact loopsOnly_append.mpr ⟨ihl, ihr⟩
  | unclosed _ _ ih =>
    exact loopsOnly_append.mpr ⟨ih, loopsOnly_singleton fun h => by cases h⟩
  | cutOff _ _ hr => exact loopsOnly_singleton fun h => (hr.short_of h).elim

theorem Optional.loopsOnly {n : Option Node} {rs : List Report} (h : Optional n rs) :
    LoopsOnly short rs := by
  cases h with
  | missing => exact loopsOnly_nil short
  | present h => exact h.loopsOnly

theorem loopsOnly_strayReports (text : Text) (line : Int) :
    LoopsOnly short (strayReports text line) := by
  unfold strayReports
  split
  · exact loopsOnly_nil short
  · exact loopsOnly_singleton fun h => by cases h

theorem Command.loopsOnly {n : Node} {rs : List Report} (h : Command n rs) :
    LoopsOnly short rs := by
  cases h with
  | comment => exact loopsOnly_nil short
  | stray text line => exact loopsOnly_strayReports text line
  | word _ h => exact h.loopsOnly
  | expression h => exact h.loopsOnly

theorem Header.loopsOnly {n : Node} {rs : List Report} (h : Header n rs) :
    LoopsOnly short rs := by
  cases h with
  | header _ _ hlabel hcondition =>
    exact loopsOnly_append.mpr ⟨hlabel.loopsOnly, hcondition.loopsOnly⟩

theorem Closing.loopsOnly {n : Option Node} {rs : List Report} (h : Closing n rs) :
    LoopsOnly short rs := by
  cases h with
  | missing => exact loopsOnly_singleton fun h => by cases h
  | header h => exact h.loopsOnly

theorem loopsOnly_line {nodes : List Node} {rs : List Report} (h : Told.Line short nodes rs) :
    LoopsOnly short rs := by
  obtain ⟨ss, gs, rfl, hseries, hg⟩ := h
  refine loopsOnly_append.mpr ⟨?_, hg.loopsOnly⟩
  induction hseries with
  | nil => exact loopsOnly_nil short
  | cons hitem _ ih => exact loopsOnly_append.mpr ⟨hitem.loopsOnly, ih⟩

theorem Simple.loopsOnly {n : Node} {rs : List Report} (h : Simple short n rs) :
    LoopsOnly short rs := by
  cases h with
  | lineBreak | comment => exact loopsOnly_nil short
  | stray text line hg =>
    exact loopsOnly_append.mpr ⟨hg.loopsOnly, loopsOnly_strayReports text line⟩
  | assignment _ h => exact h.loopsOnly
  | commands h => exact loopsOnly_line h
  | flat hh hg hline =>
    exact loopsOnly_append.mpr ⟨hh.loopsOnly,
      loopsOnly_append.mpr ⟨hg.loopsOnly, loopsOnly_line hline⟩⟩

theorem Statements.loopsOnly {nodes : List Node} {rs : List Report}
    (h : Statements short nodes rs) : LoopsOnly short rs := by
  induction h with
  | nil => exact loopsOnly_nil short
  | simple hs _ ih => exact loopsOnly_append.mpr ⟨hs.loopsOnly, ih⟩
  | block _ hh _ hg hclosing _ ihbody ih =>
    simp only [loopsOnly_append]
    exact ⟨⟨hh.loopsOnly, ihbody, hg.loopsOnly, hclosing.loopsOnly⟩, ih⟩

/-- A guard of a loop is reported for a program only if a loop may be cut short. -/
theorem Program.loopsOnly {nodes : List Node} {rs : List Report}
    (h : Told.Program short nodes rs) : LoopsOnly short rs := by
  cases h with
  | whole h => exact h.loopsOnly
  | halted h hr | cutOff _ _ h hr =>
    exact loopsOnly_append.mpr ⟨h.loopsOnly, loopsOnly_singleton hr.short_of⟩

end Told

namespace Parse

/-! ## Statements one after the other -/

/-- All tokens can be read as statements, one after the other. -/
theorem exists_steps (s : Setting) {ahead : List Token} (hne : ∀ t ∈ ahead, t.kind ≠ .endOfFile) :
    ∃ nodes reports, Steps s ahead nodes reports := by
  induction hlength : ahead.length using Nat.strongRecOn generalizing ahead with
  | ind length ih =>
    by_cases hend : (current s ahead).kind = .endOfFile
    · rw [eq_nil_of_current s hne hend]
      exact ⟨[], [], .nil⟩
    · obtain ⟨p, hp, -⟩ := @statement_reads s True 0 ahead hend
      have hlt := statement_length_lt s 0 hend hp
      obtain ⟨nodes, reports, hsteps⟩ := ih p.rest.length (by omega)
        (fun t ht => hne t (p.suffix.subset ht)) rfl
      exact ⟨_, _, .cons hend hp hlt hsteps⟩

/-- Every statement takes a token, so there are no more of them than tokens. -/
theorem Steps.length_le {s : Setting} {ahead : List Token} {nodes : List Node}
    {reports : List Report} (h : Steps s ahead nodes reports) : nodes.length ≤ ahead.length := by
  induction h with
  | nil => exact Nat.le_refl _
  | cons _ _ hlt _ ih =>
    rw [List.length_cons]
    omega

/-- Statements are read as before, whatever is behind the line. -/
theorem Steps.carried {β : Type} (c : Continuation β) {ahead : List Token} {nodes : List Node}
    {reports : List Report} (h : Steps c.before ahead nodes reports) (hlasts : c.Lasts ahead)
    (hpermits : ∀ r ∈ reports, c.Permits r) {nodes' : List Node} {reports' : List Report}
    (hmore : Steps c.after c.tail nodes' reports') :
    ∃ ns rs, Steps c.after (ahead ++ c.tail) (ns ++ nodes') (rs ++ reports') ∧
      ns.map (Node.relined c.line) = nodes.map (Node.relined c.line) ∧
        rs.map c.report = reports.map c.report := by
  induction h with
  | nil => exact ⟨[], [], hmore, rfl, rfl⟩
  | @cons ahead p nodes reports hend hp hlt _ ih =>
    obtain ⟨hfirst, hsecond⟩ := List.forall_mem_append.mp hpermits
    have hne : ahead ≠ [] := ne_nil_of_current hend
    obtain ⟨q, hq, hagrees⟩ := statement_carried c 0 hne hlasts p hp hfirst
    obtain ⟨ns, rs, hsteps, hnodes, hreports⟩ := ih (hlasts.mono (Nat.le_of_lt hlt)) hsecond
    rw [← hagrees.rest_eq] at hsteps
    have hend' : (current c.after (ahead ++ c.tail)).kind ≠ .endOfFile := by
      rwa [current_append c hne]
    refine ⟨q.value :: ns, q.reports ++ rs, ?_, ?_, ?_⟩
    · rw [List.append_assoc]
      exact .cons hend' hq (statement_length_lt c.after 0 hend' hq) hsteps
    · rw [List.map_cons, List.map_cons, hagrees.value_eq, hnodes]
    · rw [List.map_append, List.map_append, hagrees.reports_eq, hreports]

/-- The rounds that are allowed do not matter as long as they are more than the tokens. Neither
does deeper nesting, unless the limit on nesting was reached. -/
theorem Steps.mono {s s' : Setting} {ahead : List Token} {nodes : List Node}
    {reports : List Report} (h : Steps s ahead nodes reports) (hstop : s'.stop = s.stop)
    (hdepth : s.maxDepth ≤ s'.maxDepth) (hguard : Guarded reports → s'.maxDepth = s.maxDepth)
    (hrounds : (ahead.length : Int) < s.maxRounds)
    (hrounds' : (ahead.length : Int) < s'.maxRounds) :
    Steps s' ahead nodes reports := by
  let c : Continuation Report :=
    { before := s, after := s', tail := [], line := id, report := id
      depth_le := hdepth
      atLineEnd := fun t ht => by cases ht
      report_eq := fun f _ => congrArg f hstop }
  have hpermits : ∀ r ∈ reports, c.Permits r := fun r hr =>
    { depth_eq := fun hk => hguard ⟨r, hr, hk⟩
      line_eq := fun _ => congrArg Token.line hstop
      tail_eq := fun _ => rfl }
  obtain ⟨ns, rs, hsteps, hnodes, hreports⟩ := h.carried c ⟨hrounds, hrounds'⟩ hpermits .nil
  have hnodes' : ns.map (Node.relined id) = nodes.map (Node.relined id) := hnodes
  rw [Node.map_relined_id, Node.map_relined_id] at hnodes'
  have hreports' : rs.map id = reports.map id := hreports
  rw [List.map_id, List.map_id] at hreports'
  have htail : ahead ++ c.tail = ahead := List.append_nil ahead
  rw [htail, List.append_nil, List.append_nil, hnodes', hreports'] at hsteps
  exact hsteps

/-- Every program is read to the end. -/
theorem program_rest (s : Setting) (depth : Nat) {ahead : List Token}
    (hne : ∀ t ∈ ahead, t.kind ≠ .endOfFile) {p : Parsed Program ahead}
    (hp : program s depth ahead = .ok p) : p.rest = [] := by
  rw [program_eq_loop] at hp
  obtain ⟨body, -, rfl⟩ := map_eq_ok.mp hp
  have hsuffix := (lineBreaks body.rest).suffix.trans body.suffix
  show (leftovers s body.rest).rest = []
  unfold leftovers
  dsimp only
  split
  case isTrue hend => exact eq_nil_of_current s (fun t ht => hne t (hsuffix.subset ht)) hend
  case isFalse => exact (restOfProgram_spec _).2

end Parse

/-! ## Token lists -/

/-- There is an end mark in every session that begins with a token list. -/
theorem exists_mem_withEndMark (tokens : List Token) :
    ∃ t ∈ withEndMark tokens, t.kind = .endOfFile := by
  unfold withEndMark
  split
  · exact ⟨_, List.mem_singleton_self _, rfl⟩
  case h_2 last hlast =>
    by_cases hk : last.kind = .endOfFile
    · rw [if_pos hk]
      exact ⟨last, List.mem_of_getLast? hlast, hk⟩
    · rw [if_neg hk]
      exact ⟨_, List.mem_append_right _ (List.mem_singleton_self _), rfl⟩

/-- The readable tokens are followed by the first end mark. -/
theorem exists_withEndMark_eq (tokens : List Token) (limits : Limits) :
    ∃ stop more, withEndMark tokens = (Session.ofTokens tokens limits).readable ++ stop :: more ∧
      stop.kind = .endOfFile := by
  obtain ⟨t, ht, hk⟩ := exists_mem_withEndMark tokens
  have hsplit := List.takeWhile_append_dropWhile
    (p := fun t : Token => t.kind ≠ .endOfFile) (l := withEndMark tokens)
  cases hrest : (withEndMark tokens).dropWhile fun t => t.kind ≠ .endOfFile with
  | nil =>
    rw [hrest, List.append_nil] at hsplit
    rw [← hsplit] at ht
    exact absurd hk ((Session.ofTokens tokens limits).kind_ne_of_mem_readable ht)
  | cons stop more =>
    rw [hrest] at hsplit
    refine ⟨stop, more, hsplit.symm, ?_⟩
    have hhead := List.head?_dropWhile_not (fun t : Token => t.kind ≠ .endOfFile)
      (withEndMark tokens)
    rw [hrest] at hhead
    simpa using hhead

/-- The program of a token list is read up to the first end mark. -/
theorem Session.tryRun_ofTokens (tokens : List Token) (limits : Limits) :
    ∃ p : Parsed Program (Session.ofTokens tokens limits).readable,
      Parse.program (Session.ofTokens tokens limits).setting 0
        (Session.ofTokens tokens limits).readable = .ok p ∧
      (Session.ofTokens tokens limits).tryRun Parse.program = (.ok p.value,
        { Session.ofTokens tokens limits with
          position := (Session.ofTokens tokens limits).readable.length
          reports := p.reports }) := by
  let session := Session.ofTokens tokens limits
  have hne : ∀ t ∈ session.readable, t.kind ≠ .endOfFile :=
    fun t ht => session.kind_ne_of_mem_readable ht
  obtain ⟨p, hp, -⟩ := @Parse.program_reads session.setting True 0 session.readable hne
  have hrest := Parse.program_rest session.setting 0 hne hp
  have hrun : Parse.program session.setting session.depth session.ahead = .ok p := hp
  refine ⟨p, hp, ?_⟩
  rw [Session.tryRun, hrun]
  simp [Setting.position, hrest, Session.setting, Session.ofTokens]

/-- A statement that is read in a session moves its place on. -/
theorem Session.tryRun_statement (session : Session)
    (h : session.current.kind ≠ .endOfFile) :
    ∃ node next, session.tryRun Parse.statement = (.ok node, next) ∧
      session.position < next.position := by
  obtain ⟨p, hp, -⟩ :=
    @Parse.statement_reads session.setting True session.depth session.ahead h
  have hlt := Parse.statement_length_lt session.setting session.depth h hp
  have hlength : session.ahead.length = session.readable.length - session.position :=
    List.length_drop
  let next : Session :=
    { session with
      position := session.setting.position p.rest
      reports := session.reports ++ p.reports }
  refine ⟨p.value, next, ?_, ?_⟩
  · rw [Session.tryRun, hp]
  · show session.position < session.readable.length - p.rest.length
    omega

/-- The rounds that are allowed do not matter as long as they are more than the tokens. -/
theorem Parse.outcome_rounds {s s' : Setting} {ahead : List Token}
    (hne : ∀ t ∈ ahead, t.kind ≠ .endOfFile) (hstop : s'.stop = s.stop)
    (hdepth : s'.maxDepth = s.maxDepth) (hrounds : (ahead.length : Int) < s.maxRounds)
    (hrounds' : (ahead.length : Int) < s'.maxRounds) :
    Parse.outcome s' ahead = Parse.outcome s ahead := by
  obtain ⟨nodes, reports, hsteps⟩ := Parse.exists_steps s hne
  have hsteps' := hsteps.mono hstop (by omega) (fun _ => hdepth) hrounds hrounds'
  have hlength := hsteps.length_le
  rw [hsteps.outcome_eq (by omega), hsteps'.outcome_eq (by omega)]

/-- No loop of a parse is stopped by a guard unless it is told to. Without a limit on the rounds,
no guard of a loop is reported and the parse ends at the first end mark; and so it does, with the
same program and the same reports, with any limit that is not less than the number of tokens.
Wherever there is a token to be read, whatever the limits are, a statement takes one. -/
theorem parse_unhalted (tokens : List Token) (maxDepth : Int) :
    (∃ program last, (Session.ofTokens tokens ⟨none, maxDepth⟩).tryRun Parse.program =
        (.ok program, last) ∧
      (∀ r ∈ last.reports, r.problem.isOfLoop = false) ∧
      (∃ stop, (withEndMark tokens)[last.position]? = some stop ∧ stop.kind = .endOfFile) ∧
      ∀ i < last.position, ∀ t, (withEndMark tokens)[i]? = some t → t.kind ≠ .endOfFile) ∧
    (∀ session : Session, session.current.kind ≠ .endOfFile →
      ∃ node next, session.tryRun Parse.statement = (.ok node, next) ∧
        session.position < next.position) ∧
    ∀ maxRounds : Int, (withEndMark tokens).length ≤ maxRounds →
      parse tokens ⟨some maxRounds, maxDepth⟩ = parse tokens ⟨none, maxDepth⟩ := by
  let session := Session.ofTokens tokens ⟨none, maxDepth⟩
  have hne : ∀ t ∈ session.readable, t.kind ≠ .endOfFile :=
    fun t ht => session.kind_ne_of_mem_readable ht
  obtain ⟨stop, more, htokens, hstop⟩ := exists_withEndMark_eq tokens ⟨none, maxDepth⟩
  have hlength : session.readable.length < (withEndMark tokens).length := by
    rw [htokens, List.length_append, List.length_cons]
    exact Nat.lt_add_of_pos_right (Nat.succ_pos _)
  have hrounds : (session.readable.length : Int) < session.setting.maxRounds := by
    have hmax : session.setting.maxRounds = (withEndMark tokens).length + 1 := rfl
    omega
  refine ⟨?_, Session.tryRun_statement, fun maxRounds hle => ?_⟩
  · obtain ⟨p, hp, hrun⟩ := Session.tryRun_ofTokens tokens ⟨none, maxDepth⟩
    have htold : ∃ nodes : List Node, p.value.statements = nodes.map some ∧
        Told.Program False nodes p.reports :=
      Parse.program_told session.setting 0 hne (fun _ => hrounds) hp
    obtain ⟨nodes, -, htold⟩ := htold
    refine ⟨_, _, hrun, fun r hr => ?_, ⟨stop, ?_, hstop⟩, fun i hi t ht => ?_⟩
    · exact Bool.eq_false_iff.mpr (htold.loopsOnly r hr)
    · rw [htokens]
      simp
    · rw [htokens, List.getElem?_append_left hi] at ht
      exact hne t (List.mem_of_getElem? ht)
  · have hrounds' : (session.readable.length : Int) <
        (Session.ofTokens tokens ⟨some maxRounds, maxDepth⟩).setting.maxRounds :=
      Int.lt_of_lt_of_le (Int.ofNat_lt.mpr hlength) hle
    rw [parse_eq_readable, parse_eq_readable]
    exact Parse.outcome_rounds hne rfl rfl hrounds hrounds'

end Gcode
