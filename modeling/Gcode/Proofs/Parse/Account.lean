import Gcode.Proofs.Node.Damage
import Gcode.Proofs.Parse.ToldProgram

/-!
# Reports account for the damage

The reports of a parse are tallied by kind. Of every kind but that of limits there are as many as
the tree shows damage: what is reported twice, once while a parse looks for the end of a block and
once when it reads the line, is kept once. Text that a limit cut off is not reported as stray, so
stray text is accounted for only where no limit was reached.

## Main definitions

* `tally` — how many reports are of a kind.
* `Accountable` — the reports of a kind stand for damage.

## Main statements

* `Told.Expression.tally_eq`, `Told.Statements.tally_eq` — there are as many as there is damage.
* `parse_damage` — the reports of a parse account for the damage of the program.
-/

namespace Gcode

/-- How many of the reports are of the given kind. -/
def tally (kind : DiagnosticKind) (rs : List Report) : Nat := (rs.map Report.kind).count kind

@[simp] theorem tally_nil (kind : DiagnosticKind) : tally kind [] = 0 := rfl

@[simp] theorem tally_append (kind : DiagnosticKind) (rs ss : List Report) :
    tally kind (rs ++ ss) = tally kind rs + tally kind ss := by
  simp [tally]

theorem tally_singleton (kind : DiagnosticKind) (r : Report) :
    tally kind [r] = if r.kind = kind then 1 else 0 := by
  simp [tally, List.count_singleton]

/-- The reports of the kind stand for damage: it is not the kind of limits, and if it is that of
stray text, no limit cut off any text. -/
structure Accountable (kind : DiagnosticKind) (rs : List Report) : Prop where
  kind_ne : kind ≠ .livenessGuard
  unguarded : kind = .unexpectedToken → ¬Guarded rs

@[simp] theorem accountable_append {kind : DiagnosticKind} {rs ss : List Report} :
    Accountable kind (rs ++ ss) ↔ Accountable kind rs ∧ Accountable kind ss := by
  constructor
  · intro h
    have hu := h.unguarded
    simp only [guarded_append, not_or] at hu
    exact ⟨⟨h.kind_ne, fun hk => (hu hk).1⟩, ⟨h.kind_ne, fun hk => (hu hk).2⟩⟩
  · rintro ⟨h, k⟩
    refine ⟨h.kind_ne, fun hk => ?_⟩
    rw [guarded_append, not_or]
    exact ⟨h.unguarded hk, k.unguarded hk⟩

/-- A limit is no report of damage. -/
theorem Report.Limits.tally_eq_zero {short : Prop} {r : Report} (h : r.Limits short)
    {kind : DiagnosticKind} (hk : kind ≠ .livenessGuard) : tally kind [r] = 0 := by
  rw [tally_singleton, if_neg]
  rw [h.kind_eq]
  exact hk.symm

theorem OnlyLimits.tally_eq_zero {short : Prop} {rs : List Report} (h : OnlyLimits short rs)
    {kind : DiagnosticKind} (hk : kind ≠ .livenessGuard) : tally kind rs = 0 := by
  refine List.count_eq_zero_of_not_mem fun hmem => ?_
  obtain ⟨r, hr, rfl⟩ := List.mem_map.mp hmem
  exact hk (h r hr).kind_eq

namespace Told

open Node (damage damage? owed)

variable {kind : DiagnosticKind}

/-! ## Expressions -/

/-- Text that a limit cut off is neither damage of the kind nor reported as such. -/
theorem tally_cutOff {short : Prop} {r : Report} (hr : r.Limits short)
    (h : Accountable kind [r]) (text : Text) (line : Int) :
    tally kind [r] = damage? kind (some (.unknown text line)) := by
  have hstray : kind ≠ .unexpectedToken := fun hk => h.unguarded hk ⟨r, by simp, hr.kind_eq⟩
  rw [hr.tally_eq_zero h.kind_ne, Node.damage?_some]
  cases kind with
  | unexpectedToken => exact absurd rfl hstray
  | _ => rfl

theorem tally_missingToken (wanted : TokenKind) (found : Token) (line : Int) :
    tally kind [⟨.missingToken wanted found, line⟩] = owed kind none := by
  simp [tally_singleton, owed, Report.kind, Problem.kind, eq_comm]

/-- Of a kind that stands for damage, an expression comes with as many reports as it shows damage,
and with one more if it is missing. -/
theorem Expression.tally_eq {n : Option Node} {rs : List Report} (h : Expression n rs)
    (hc : Accountable kind rs) : tally kind rs = damage? kind n + owed kind n := by
  induction h with
  | missing t => simp [tally_singleton, owed, Report.kind, Problem.kind, eq_comm]
  | number | parameter | word | bareCall =>
    rw [Node.damage?_some, Node.damage_sound rfl rfl rfl]
    simp [Node.required, Node.children, Node.operands]
  | call _ _ ih =>
    rw [Node.damage?_some, Node.damage_sound rfl rfl rfl, ih hc]
    simp [Node.required, Node.children, Node.operands]
  | unary _ _ ih | closed _ ih =>
    rw [Node.damage?_some, Node.damage_sound rfl rfl rfl, ih hc]
    simp [Node.required, Node.children, Node.operands, Nat.add_comm]
  | binary _ _ _ ihl ihr =>
    rw [accountable_append] at hc
    rw [Node.damage?_some, Node.damage_sound rfl rfl rfl, tally_append, ihl hc.1, ihr hc.2]
    simp only [Node.required, Node.children, Node.operands, List.map_cons, List.map_nil,
      List.sum_cons, List.sum_nil, Node.owed_some]
    omega
  | unclosed t _ ih =>
    rw [accountable_append] at hc
    rw [Node.damage?_some, Node.damage_unclosed, tally_append, ih hc.1, tally_missingToken]
    simp only [Node.children, Node.operands, List.map_cons, List.map_nil, List.sum_cons,
      List.sum_nil, Node.owed_some]
    omega
  | cutOff text line hr => rw [tally_cutOff hr hc, Node.owed_some, Nat.add_zero]

theorem Optional.tally_eq {n : Option Node} {rs : List Report} (h : Optional n rs)
    (hc : Accountable kind rs) : tally kind rs = damage? kind n := by
  cases h with
  | missing => rfl
  | present h => rw [h.tally_eq hc, Node.owed_some, Nat.add_zero]

/-! ## Commands and headers -/

/-- Stray text is reported if it is damage. -/
theorem tally_strayReports (text : Text) (line : Int) :
    tally kind (strayReports text line) = damage? kind (some (.unknown text line)) := by
  rw [Node.damage?_some, strayReports]
  by_cases hblank : Text.isBlankOnly text = true
  · rw [if_pos hblank]
    cases kind <;> simp [Node.damage, Node.missingOperands, Node.required, Node.children,
      Node.operands, Node.isUnclosedBracket, Node.isUnclosedBlock, Node.isStray, hblank]
  · rw [if_neg hblank, tally_singleton]
    cases kind <;> simp [Node.damage, Node.missingOperands, Node.required, Node.children,
      Node.operands, Node.isUnclosedBracket, Node.isUnclosedBlock, Node.isStray, hblank,
      Report.kind, Problem.kind]

theorem Command.tally_eq {n : Node} {rs : List Report} (h : Command n rs)
    (hc : Accountable kind rs) : tally kind rs = damage? kind (some n) := by
  cases h with
  | comment =>
    rw [Node.damage?_some, Node.damage_sound rfl rfl rfl]
    simp [Node.required, Node.children, Node.operands]
  | stray text line => exact tally_strayReports text line
  | word _ h =>
    rw [Node.damage?_some, Node.damage_sound rfl rfl rfl, h.tally_eq hc]
    simp [Node.required, Node.children, Node.operands]
  | expression h => rw [h.tally_eq hc, Node.owed_some, Nat.add_zero]

theorem Header.tally_eq {n : Node} {rs : List Report} (h : Header n rs)
    (hc : Accountable kind rs) : tally kind rs = damage? kind (some n) := by
  cases h with
  | header _ _ hlabel hcondition =>
    rw [accountable_append] at hc
    rw [Node.damage?_some, Node.damage_sound rfl rfl rfl, tally_append, hlabel.tally_eq hc.1,
      hcondition.tally_eq hc.2]
    simp only [Node.required, Node.children, List.map_cons, List.map_nil, List.sum_cons,
      List.sum_nil]
    omega

/-- The end of a block is reported if it is missing. -/
theorem Closing.tally_eq {n : Option Node} {rs : List Report} (h : Closing n rs)
    (hc : Accountable kind rs) :
    tally kind rs = damage? kind n + if kind = .unmatchedBlock ∧ n = none then 1 else 0 := by
  cases h with
  | missing => simp [tally_singleton, Report.kind, Problem.kind, eq_comm]
  | header h => simp [h.tally_eq hc]

/-! ## Statements -/

variable {short : Prop}

/-- The damage of nodes that stand one behind the other. -/
def damageOf (kind : DiagnosticKind) (nodes : List Node) : Nat :=
  ((nodes.map some).map (damage? kind)).sum

@[simp] theorem damageOf_nil : damageOf kind [] = 0 := rfl

@[simp] theorem damageOf_cons (n : Node) (nodes : List Node) :
    damageOf kind (n :: nodes) = damage? kind (some n) + damageOf kind nodes := by
  simp [damageOf]

@[simp] theorem damageOf_append (ns ms : List Node) :
    damageOf kind (ns ++ ms) = damageOf kind ns + damageOf kind ms := by
  simp [damageOf]

theorem tally_commands {nodes : List Node} {rs : List Report} (h : Series Command nodes rs)
    (hc : Accountable kind rs) : tally kind rs = damageOf kind nodes := by
  induction h with
  | nil => rfl
  | cons hitem _ ih =>
    rw [accountable_append] at hc
    rw [tally_append, hitem.tally_eq hc.1, ih hc.2, damageOf_cons]

theorem tally_line {nodes : List Node} {rs : List Report} (h : Told.Line short nodes rs)
    (hc : Accountable kind rs) :
    tally kind rs = damage? kind (some (.commandLine (nodes.map some))) := by
  obtain ⟨ss, gs, rfl, hseries, hg⟩ := h
  rw [accountable_append] at hc
  rw [tally_append, tally_commands hseries hc.1, hg.tally_eq_zero hc.1.kind_ne, Node.damage?_some,
    Node.damage_sound rfl rfl rfl]
  simp [Node.required, Node.children, damageOf]

theorem Simple.tally_eq {n : Node} {rs : List Report} (h : Simple short n rs)
    (hc : Accountable kind rs) : tally kind rs = damage? kind (some n) := by
  cases h with
  | lineBreak | comment =>
    rw [Node.damage?_some, Node.damage_sound rfl rfl rfl]
    simp [Node.required, Node.children, Node.operands]
  | stray text line hg =>
    rw [tally_append, hg.tally_eq_zero hc.kind_ne, tally_strayReports, Nat.zero_add]
  | assignment _ h =>
    rw [Node.damage?_some, Node.damage_sound rfl rfl rfl, h.tally_eq hc]
    simp [Node.required, Node.children, Nat.add_comm]
  | commands h => exact tally_line h hc
  | flat hh hg hline =>
    simp only [accountable_append] at hc
    rw [Node.damage?_some, Node.damage_sound rfl rfl rfl, tally_append, tally_append,
      hh.tally_eq hc.1, hg.tally_eq_zero hc.1.kind_ne, tally_line hline hc.2.2]
    simp [Node.required, Node.children]

/-- Of a kind that stands for damage, statements come with as many reports as they show damage. -/
theorem Statements.tally_eq {nodes : List Node} {rs : List Report}
    (h : Statements short nodes rs) (hc : Accountable kind rs) :
    tally kind rs = damageOf kind nodes := by
  induction h with
  | nil => rfl
  | simple hs _ ih =>
    rw [accountable_append] at hc
    rw [tally_append, hs.tally_eq hc.1, ih hc.2, damageOf_cons]
  | block keyword hh _ hg hclosing _ ihbody ih =>
    simp only [accountable_append] at hc
    obtain ⟨⟨hheader, hbody, hguard, hend⟩, hmore⟩ := hc
    simp only [tally_append]
    rw [hh.tally_eq hheader, ihbody hbody, hg.tally_eq_zero hguard.kind_ne, hclosing.tally_eq hend,
      ih hmore, damageOf_cons, Node.damage?_some kind (.block _ _ _ _), Node.damage_block]
    simp only [Node.children, List.map_cons, List.sum_cons, damageOf]
    omega

theorem Program.tally_eq {nodes : List Node} {rs : List Report} (h : Told.Program short nodes rs)
    (hc : Accountable kind rs) : tally kind rs = damageOf kind nodes := by
  cases h with
  | whole h => exact h.tally_eq hc
  | halted h hr =>
    rw [accountable_append] at hc
    rw [tally_append, h.tally_eq hc.1, hr.tally_eq_zero hc.1.kind_ne, Nat.add_zero]
  | cutOff text line h hr =>
    rw [accountable_append] at hc
    rw [tally_append, h.tally_eq hc.1, tally_cutOff hr hc.2, damageOf_append, damageOf_cons,
      damageOf_nil, Nat.add_zero]

end Told

/-! ## Programs -/

/-- The reports of a parse account for the damage of the program. There are as many of missing
tokens and operands as operands are missing and brackets are not closed, as many of unmatched
blocks as there are blocks that no line closes, and, if no limit was reached, as many of unexpected
tokens as there is text other than blanks that no statement can hold. -/
theorem parse_damage (tokens : List Token) (limits : Limits) :
    ∃ program reports, parse tokens limits = .ok (program, reports) ∧
      tally .syntaxMismatch reports =
        (program.node.nodes.map Node.missingOperands).sum +
          program.node.nodes.countP Node.isUnclosedBracket ∧
      tally .unmatchedBlock reports = program.node.nodes.countP Node.isUnclosedBlock ∧
      (¬Guarded reports →
        tally .unexpectedToken reports = program.node.nodes.countP Node.isStray) := by
  let session := Session.ofTokens tokens limits
  have hne : ∀ t ∈ session.readable, t.kind ≠ .endOfFile :=
    fun t ht => session.kind_ne_of_mem_readable ht
  obtain ⟨p, hp, -⟩ := @Parse.program_reads session.setting True 0 session.readable hne
  have htold : ∃ nodes : List Node, p.value.statements = nodes.map some ∧
      Told.Program True nodes p.reports :=
    Parse.program_told session.setting 0 hne (fun hs => absurd trivial hs) hp
  obtain ⟨nodes, hvalue, htold⟩ := htold
  have hdamage : ∀ kind, Accountable kind p.reports →
      tally kind p.reports = Node.totalDamage kind p.value.node.nodes := by
    intro kind hc
    have hroot : Node.totalDamage kind p.value.node.nodes = Node.damage? kind (some p.value.node) :=
      rfl
    rw [htold.tally_eq hc, hroot, Node.damage?_some, Program.node, hvalue,
      Node.damage_sound rfl rfl rfl]
    simp [Node.required, Node.children, Told.damageOf]
  refine ⟨p.value, p.reports, ?_, ?_, ?_, ?_⟩
  · rw [parse_eq_readable, Parse.outcome, hp]
  · rw [hdamage _ ⟨by decide, by simp⟩, Node.totalDamage_syntaxMismatch]
  · rw [hdamage _ ⟨by decide, by simp⟩, Node.totalDamage_unmatchedBlock]
  · intro hg
    rw [hdamage _ ⟨by decide, fun _ => hg⟩, Node.totalDamage_unexpectedToken]

end Gcode
