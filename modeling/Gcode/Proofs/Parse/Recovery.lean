import Gcode.Proofs.Parse.Rounds
import Mathlib.Data.List.Basic

/-!
# Recovery at a line break

What is wrong on a line does not reach behind its line break. Tokens in front of a line break are
read as if the program ended there, and tokens behind it as if the program began there; only a
block that is still open goes on. Since the program then ends on the line of the line break, this
is the line of text that a limit on nesting cuts off at the end, which need not be the line of the
last token.

## Main definitions

* `lastLine` — the line of the end mark that is put behind tokens.

## Main statements

* `Parse.Steps.unique` — tokens can be read as statements in one way only.
* `Parse.Steps.readOn` — statements are read as before, whatever is behind the line.
* `parse_lineBreak` — a program is read piece by piece, from one line break to the next.
-/

namespace Gcode

open Node (relined relinedOf)
open Reading (AtLineEnd)

namespace Parse

variable {s s' : Setting} {ahead tail : List Token} {nodes nodes' : List Node}
  {reports reports' : List Report}

/-! ## Statements one after the other -/

/-- Tokens can be read as statements, one after the other, in one way only. -/
theorem Steps.unique (h : Steps s ahead nodes reports) (h' : Steps s ahead nodes' reports') :
    nodes = nodes' ∧ reports = reports' := by
  induction h generalizing nodes' reports' with
  | nil =>
    cases h' with
    | nil => exact ⟨rfl, rfl⟩
    | cons hend _ _ _ => exact absurd rfl hend
  | cons hend hp _ _ ih =>
    cases h' with
    | nil => exact absurd rfl hend
    | cons _ hq _ hmore =>
      cases hp.symm.trans hq
      obtain ⟨rfl, rfl⟩ := ih hmore
      exact ⟨rfl, rfl⟩

/-- A line break is a statement of its own. -/
theorem Steps.lineBreak {e : Token} (he : e.kind = .endOfLine) (h : Steps s ahead nodes reports) :
    Steps s (e :: ahead) (.endOfLine e.value :: nodes) reports := by
  have hstatement : statement s 0 (e :: ahead) = .ok (Parse.lineBreak s (e :: ahead)) := by
    simp [statement, he]
  exact .cons (by simp [he]) hstatement (Nat.lt_succ_self _) h

/-- Statements are read as before if a line ends behind them, unless a block is open there. Text
that was cut off at the end may then be on another line. -/
theorem Steps.readOn (h : Steps s ahead nodes reports) (hmore : Steps s' tail nodes' reports')
    (line : Int → Int) (htail : AtLineEnd tail) (hdepth : s'.maxDepth = s.maxDepth)
    (hline : Guarded reports → line (current s' tail).line = line s.endLine)
    (hclosed : ∀ r ∈ reports, r.kind = .unmatchedBlock → tail = [])
    (hrounds : (ahead.length : Int) < s.maxRounds)
    (hrounds' : (ahead.length : Int) < s'.maxRounds) :
    ∃ ns rs, Steps s' (ahead ++ tail) (ns ++ nodes') (rs ++ reports') ∧
      ns.map (relined line) = nodes.map (relined line) ∧
        rs.map Report.kind = reports.map Report.kind := by
  let c : Continuation DiagnosticKind :=
    { before := s, after := s', tail, line, report := Report.kind
      depth_le := Int.le_of_eq hdepth.symm
      atLineEnd := htail
      report_eq := fun _ hf => hf _ _ }
  have hpermits : ∀ r ∈ reports, c.Permits r := fun r hr =>
    { depth_eq := fun _ => hdepth
      line_eq := fun hk => hline ⟨r, hr, hk⟩
      tail_eq := hclosed r hr }
  exact h.carried c ⟨hrounds, hrounds'⟩ hpermits hmore

/-! ## Text that is cut off at the end of a line -/

/-- A sign beyond the limit on nesting at the end of a line is kept as text, on the line of what
ends it. -/
theorem value_deepSign (s : Setting) {t : Token} (ht : isSign t = true) {rest : List Token}
    (hrest : AtLineEnd rest) {depth : Nat} (hdepth : s.maxDepth ≤ depth) :
    value s depth (t :: rest) = ⟨some (.unknown t.value (current s rest).line), rest,
      [⟨.deepSigns s.maxDepth, (current s rest).line⟩], List.suffix_cons t rest⟩ := by
  have hsigns : signs (t :: rest) =
      ⟨[t.value], rest, [], List.suffix_cons t rest⟩ := by
    rw [signs, if_pos ht, signs_of_atLineEnd hrest]
    rfl
  have hroom : (s.maxDepth - (depth : Int)).toNat = 0 := by omega
  have hlong : 0 < [t.value].length := Nat.zero_lt_one
  have hcut : cutOff s t.value rest =
      Parsed.pure (.unknown t.value (current s rest).line) rest := by
    rw [cutOff, cutOffText_of_atLineEnd s hrest]
    simp [Parsed.map, Parsed.pure]
  have hoperand : operand s depth (t :: rest) =
      ⟨some (.unknown t.value (current s rest).line), rest,
        [⟨.deepSigns s.maxDepth, (current s rest).line⟩], List.suffix_cons t rest⟩ := by
    rw [operand, hsigns]
    dsimp only
    rw [hroom, if_pos hlong]
    simp only [List.drop_zero, List.flatten_cons, List.flatten_nil, List.append_nil]
    rw [hcut]
    rfl
  rw [value, hoperand]
  dsimp only
  rw [chain_of_atLineEnd s hrest]
  rfl

/-- Such a sign that is assigned to a parameter. -/
theorem Steps.deepSign {s : Setting} {t u v : Token} (ht : t.kind = .parameter)
    (hu : u.kind = .assign) (hv : isSign v = true) (hs : s.maxDepth ≤ 0) {rest : List Token}
    (hrest : AtLineEnd rest) {nodes : List Node} {reports : List Report}
    (h : Steps s rest nodes reports) :
    Steps s (t :: u :: v :: rest)
      (.assignment t.value (some (.unknown v.value (current s rest).line)) :: nodes)
      (⟨.deepSigns s.maxDepth, (current s rest).line⟩ :: reports) := by
  have hstart : startsAssignment s (t :: u :: v :: rest) = true := by
    simp [startsAssignment, current, ht, hu]
  have hassignment : Parse.assignment s 0 (t :: u :: v :: rest) =
      ⟨.assignment t.value (some (.unknown v.value (current s rest).line)), rest,
        [⟨.deepSigns s.maxDepth, (current s rest).line⟩], ⟨[t, u, v], rfl⟩⟩ := by
    rw [Parse.assignment]
    dsimp only [advance, List.tail_cons]
    rw [expect_cons_of_eq s hu]
    dsimp only [advance, List.tail_cons, Parsed.map, Parsed.behind]
    rw [value_deepSign s hv hrest hs]
    rfl
  have hp : statement s 0 (t :: u :: v :: rest) =
      .ok (Parse.assignment s 0 (t :: u :: v :: rest)) := by
    simp [statement, ht, hstart]
  rw [hassignment] at hp
  exact .cons (by simp [ht]) hp (by simp; omega) h

end Parse

/-! ## Token lists without end marks -/

/-- The line of the end mark that is put behind tokens: that of the last token, if there is one. -/
def lastLine (tokens : List Token) : Int := (tokens.getLast?.map Token.line).getD 1

/-- An end mark on the given line. -/
def endMarkOn (line : Int) : Token := ⟨.endOfFile, [], line⟩

section

variable {tokens : List Token} (hne : ∀ t ∈ tokens, t.kind ≠ .endOfFile)
include hne

theorem withEndMark_eq : withEndMark tokens = tokens ++ [endMarkOn (lastLine tokens)] := by
  unfold withEndMark lastLine
  cases hlast : tokens.getLast? with
  | none =>
    rw [List.getLast?_eq_none_iff] at hlast
    subst hlast
    rfl
  | some last =>
    dsimp only
    rw [if_neg (hne last (List.mem_of_getLast? hlast))]
    rfl

/-- Without an end mark, tokens are parsed as if one was on the line of the last of them. -/
theorem parse_eq_endMarkOn (limits : Limits) :
    parse tokens limits = parse (tokens ++ [endMarkOn (lastLine tokens)]) limits := by
  have hmark : withEndMark (tokens ++ [endMarkOn (lastLine tokens)]) =
      tokens ++ [endMarkOn (lastLine tokens)] := by
    simp [withEndMark, endMarkOn]
  have hsession : Session.ofTokens tokens limits =
      Session.ofTokens (tokens ++ [endMarkOn (lastLine tokens)]) limits := by
    rw [Session.ofTokens, Session.ofTokens, hmark, withEndMark_eq hne]
  rw [parse, parse, hsession]

end

/-- The setting in which tokens are parsed that an end mark on the given line ends, without a limit
on the rounds. -/
def endedSetting (tokens : List Token) (line maxDepth : Int) : Setting :=
  Limits.setting ⟨none, maxDepth⟩ tokens (endMarkOn line)

theorem length_lt_maxRounds (tokens : List Token) (line maxDepth : Int) :
    (tokens.length : Int) < (endedSetting tokens line maxDepth).maxRounds := by
  have hrounds : (endedSetting tokens line maxDepth).maxRounds = (tokens.length : Int) + 2 := rfl
  omega

namespace Parse.Steps

variable {tokens back : List Token} {line maxDepth : Int} {nodes nodes' : List Node}
  {reports reports' : List Report}

/-- Statements that can be read one after the other are the program. -/
theorem parse_eq (h : Steps (endedSetting tokens line maxDepth) tokens nodes reports)
    (hne : ∀ t ∈ tokens, t.kind ≠ .endOfFile) :
    parse (tokens ++ [endMarkOn line]) ⟨none, maxDepth⟩ = .ok (⟨nodes.map some⟩, reports) := by
  have hlength := h.length_le
  have hrounds := length_lt_maxRounds tokens line maxDepth
  rw [parse_eq_outcome hne rfl]
  exact h.outcome_eq (Int.lt_of_le_of_lt (Int.ofNat_le.mpr hlength) hrounds)

/-- The line on which a program ends is only seen in text that was cut off at the end. -/
theorem ended (h : Steps (endedSetting tokens line maxDepth) tokens nodes reports) (line' : Int) :
    ∃ ns rs, Steps (endedSetting tokens line' maxDepth) tokens ns rs ∧
      rs.map Report.kind = reports.map Report.kind ∧
        ∀ g : Int → Int, (Guarded reports → g line' = g line) →
          ns.map (relined g) = nodes.map (relined g) := by
  have hseen : ∀ g : Int → Int, (Guarded reports → g line' = g line) →
      ∃ ns rs, Steps (endedSetting tokens line' maxDepth) tokens ns rs ∧
        ns.map (relined g) = nodes.map (relined g) ∧
          rs.map Report.kind = reports.map Report.kind := by
    intro g hg
    have hnil : Steps (endedSetting tokens line' maxDepth) [] [] [] := .nil
    obtain ⟨ns, rs, hsteps, hnodes, hkinds⟩ := h.readOn hnil g (fun _ ht => by cases ht) rfl hg
      (fun _ _ _ => rfl) (length_lt_maxRounds tokens line maxDepth)
      (length_lt_maxRounds tokens line' maxDepth)
    rw [List.append_nil, List.append_nil, List.append_nil] at hsteps
    exact ⟨ns, rs, hsteps, hnodes, hkinds⟩
  obtain ⟨ns, rs, hsteps, -, hkinds⟩ := hseen (fun _ => 0) fun _ => rfl
  refine ⟨ns, rs, hsteps, hkinds, fun g hg => ?_⟩
  obtain ⟨ms, qs, hsteps', hnodes, -⟩ := hseen g hg
  obtain ⟨rfl, -⟩ := hsteps.unique hsteps'
  exact hnodes

/-- Statements behind other tokens are read as they are read alone. -/
theorem behind (h : Steps (endedSetting back (lastLine back) maxDepth) back nodes reports)
    (front : List Token) (e : Token) :
    Steps (endedSetting (front ++ e :: back) (lastLine (front ++ e :: back)) maxDepth) back nodes
      reports := by
  by_cases hnil : back = []
  · subst hnil
    obtain ⟨rfl, rfl⟩ := h.unique .nil
    exact .nil
  · have hline : lastLine (front ++ e :: back) = lastLine back := by
      rw [lastLine, lastLine, List.getLast?_append_cons, List.getLast?_cons_of_ne_nil hnil]
    have hlength : back.length ≤ (front ++ e :: back).length := by
      rw [List.length_append, List.length_cons]
      omega
    have hrounds := length_lt_maxRounds (front ++ e :: back) (lastLine back) maxDepth
    rw [hline]
    exact h.mono rfl (Int.le_refl _) (fun _ => rfl) (length_lt_maxRounds back _ _) (by omega)

/-- Statements in front of a line break, and those behind it. -/
theorem joined {front : List Token} {e : Token} (he : e.kind = .endOfLine)
    (h : Steps (endedSetting front e.line maxDepth) front nodes reports)
    (hclosed : ∀ r ∈ reports, r.kind ≠ .unmatchedBlock)
    (h' : Steps (endedSetting back (lastLine back) maxDepth) back nodes' reports') :
    ∃ rs, Steps (endedSetting (front ++ e :: back) (lastLine (front ++ e :: back)) maxDepth)
      (front ++ e :: back) (nodes ++ .endOfLine e.value :: nodes') (rs ++ reports') ∧
        rs.map Report.kind = reports.map Report.kind := by
  have hlength : front.length ≤ (front ++ e :: back).length := by
    rw [List.length_append]
    omega
  have hrounds := length_lt_maxRounds (front ++ e :: back) (lastLine (front ++ e :: back)) maxDepth
  have hend : AtLineEnd (e :: back) := fun t ht => by cases ht; exact he
  obtain ⟨ns, rs, hsteps, hnodes, hkinds⟩ := h.readOn ((h'.behind front e).lineBreak he) id hend
    rfl (fun _ => rfl) (fun r hr hk => absurd hk (hclosed r hr))
    (length_lt_maxRounds front e.line maxDepth) (by omega)
  rw [Node.map_relined_id, Node.map_relined_id] at hnodes
  subst hnodes
  exact ⟨rs, hsteps, hkinds⟩

end Parse.Steps

/-! ## Programs -/

/-- Tokens without an end mark are read as statements, one after the other. -/
theorem exists_steps_parse {tokens : List Token} (hne : ∀ t ∈ tokens, t.kind ≠ .endOfFile)
    (maxDepth : Int) :
    ∃ nodes reports,
      Parse.Steps (endedSetting tokens (lastLine tokens) maxDepth) tokens nodes reports ∧
        parse tokens ⟨none, maxDepth⟩ = .ok (⟨nodes.map some⟩, reports) := by
  obtain ⟨nodes, reports, hsteps⟩ :=
    Parse.exists_steps (endedSetting tokens (lastLine tokens) maxDepth) hne
  refine ⟨nodes, reports, hsteps, ?_⟩
  rw [parse_eq_endMarkOn hne]
  exact hsteps.parse_eq hne

/-- A program is read piece by piece: in front of a line break as if it ended on that line, and
behind it as if it began there, unless a block is open at the line break. The piece in front is
read as it is read alone but for the lines of text that was cut off at its end, and these are the
same if the line break is on the line of the last token or no limit was reached. -/
theorem parse_lineBreak (front back : List Token) (hfront : ∀ t ∈ front, t.kind ≠ .endOfFile)
    (hback : ∀ t ∈ back, t.kind ≠ .endOfFile) (e : Token) (he : e.kind = .endOfLine)
    (maxDepth : Int) :
    ∃ first firstReports second secondReports,
      parse front ⟨none, maxDepth⟩ = .ok (first, firstReports) ∧
      parse back ⟨none, maxDepth⟩ = .ok (second, secondReports) ∧
      ((∀ r ∈ firstReports, r.kind ≠ .unmatchedBlock) →
        ∃ statements endedReports reports,
          parse (front ++ [e] ++ back) ⟨none, maxDepth⟩ =
            .ok (⟨statements ++ some (.endOfLine e.value) :: second.statements⟩, reports) ∧
          parse (front ++ [endMarkOn e.line]) ⟨none, maxDepth⟩ =
            .ok (⟨statements⟩, endedReports) ∧
          relinedOf (fun _ => 0) statements = relinedOf (fun _ => 0) first.statements ∧
          (lastLine front = e.line ∨ ¬Guarded firstReports → statements = first.statements) ∧
          reports.map Report.kind =
            firstReports.map Report.kind ++ secondReports.map Report.kind) := by
  obtain ⟨nodes, firstReports, hfirst, hparse⟩ := exists_steps_parse hfront maxDepth
  obtain ⟨nodes', secondReports, hsecond, hparse'⟩ := exists_steps_parse hback maxDepth
  refine ⟨_, _, _, _, hparse, hparse', fun hclosed => ?_⟩
  obtain ⟨ended, endedReports, hended, hkinds, hseen⟩ := hfirst.ended e.line
  have hkept : ∀ r ∈ endedReports, r.kind ≠ .unmatchedBlock := by
    intro r hr hk
    have hmem : DiagnosticKind.unmatchedBlock ∈ firstReports.map Report.kind := by
      rw [← hkinds, ← hk]
      exact List.mem_map_of_mem hr
    obtain ⟨q, hq, hqk⟩ := List.mem_map.mp hmem
    exact hclosed q hq hqk
  obtain ⟨rs, hjoined, hjoinedKinds⟩ := hended.joined he hkept hsecond
  have hne : ∀ t ∈ front ++ e :: back, t.kind ≠ .endOfFile := by
    rw [List.forall_mem_append, List.forall_mem_cons, he]
    exact ⟨hfront, by decide, hback⟩
  refine ⟨ended.map some, endedReports, rs ++ secondReports, ?_, hended.parse_eq hfront, ?_, ?_, ?_⟩
  · rw [List.append_assoc, List.singleton_append, parse_eq_endMarkOn hne, hjoined.parse_eq hne,
      List.map_append, List.map_cons]
  · rw [Node.relinedOf_map_some, Node.relinedOf_map_some, hseen _ fun _ => rfl]
  · intro hline
    have hsame := hseen id fun hguarded => by
      rcases hline with hline | hguard
      · exact hline.symm
      · exact absurd hguarded hguard
    rw [Node.map_relined_id, Node.map_relined_id] at hsame
    rw [hsame]
  · rw [List.map_append, hjoinedKinds, hkinds]

/-- A sign beyond the limit on nesting, assigned to a parameter at the end of a program. -/
theorem parse_deepSign :
    parse [⟨.parameter, "#1", 1⟩, ⟨.assign, "=", 1⟩, ⟨.operator, "-", 1⟩] ⟨none, 0⟩ =
      .ok (⟨[some (.assignment "#1" (some (.unknown "-" 1)))]⟩, [⟨.deepSigns 0, 1⟩]) := by
  have hne : ∀ t ∈ [(⟨.parameter, "#1", 1⟩ : Token), ⟨.assign, "=", 1⟩, ⟨.operator, "-", 1⟩],
      t.kind ≠ .endOfFile := by decide
  rw [parse_eq_endMarkOn hne]
  exact Parse.Steps.parse_eq
    (.deepSign rfl rfl rfl (Int.le_refl 0) (fun _ ht => by cases ht) .nil) hne

/-- A comment behind the line of such a sign is read as it is read alone. -/
theorem parse_lineBreak_deepSign :
    ∃ second secondReports reports,
      parse [⟨.comment, "(x)", 2⟩] ⟨none, 0⟩ = .ok (second, secondReports) ∧
      parse ([⟨.parameter, "#1", 1⟩, ⟨.assign, "=", 1⟩, ⟨.operator, "-", 1⟩] ++
          [⟨.endOfLine, "\n", 1⟩] ++ [⟨.comment, "(x)", 2⟩]) ⟨none, 0⟩ =
        .ok (⟨some (.assignment "#1" (some (.unknown "-" 1))) :: some (.endOfLine "\n") ::
          second.statements⟩, reports) ∧
      reports.map Report.kind = .livenessGuard :: secondReports.map Report.kind := by
  obtain ⟨first, firstReports, second, secondReports, hfirst, hsecond, hjoined⟩ :=
    parse_lineBreak [⟨.parameter, "#1", 1⟩, ⟨.assign, "=", 1⟩, ⟨.operator, "-", 1⟩]
      [⟨.comment, "(x)", 2⟩] (by decide) (by decide) ⟨.endOfLine, "\n", 1⟩ rfl 0
  cases parse_deepSign.symm.trans hfirst
  obtain ⟨statements, -, reports, hparse, -, -, hsame, hkinds⟩ := hjoined (by decide)
  rw [hsame (.inl rfl)] at hparse
  exact ⟨second, secondReports, reports, hsecond, hparse, hkinds⟩

/-- If the line break is on another line than the sign, the text is on another line as well. -/
theorem parse_lineBreak_ne :
    ∃ first firstReports second secondReports joint reports,
      parse [⟨.parameter, "#1", 1⟩, ⟨.assign, "=", 1⟩, ⟨.operator, "-", 1⟩] ⟨none, 0⟩ =
        .ok (first, firstReports) ∧
      (∀ r ∈ firstReports, r.kind ≠ .unmatchedBlock) ∧
      parse [] ⟨none, 0⟩ = .ok (second, secondReports) ∧
      parse ([⟨.parameter, "#1", 1⟩, ⟨.assign, "=", 1⟩, ⟨.operator, "-", 1⟩] ++
        [⟨.endOfLine, "\n", 7⟩] ++ []) ⟨none, 0⟩ = .ok (joint, reports) ∧
      joint.statements ≠ first.statements ++ some (.endOfLine "\n") :: second.statements := by
  have hne : ∀ t ∈ [(⟨.parameter, "#1", 1⟩ : Token), ⟨.assign, "=", 1⟩, ⟨.operator, "-", 1⟩,
      ⟨.endOfLine, "\n", 7⟩], t.kind ≠ .endOfFile := by decide
  have hnil : parse [] ⟨none, 0⟩ = .ok (⟨[]⟩, []) := by
    rw [parse_eq_endMarkOn (fun _ ht => by cases ht)]
    exact Parse.Steps.parse_eq .nil fun _ ht => by cases ht
  have hjoint : parse [⟨.parameter, "#1", 1⟩, ⟨.assign, "=", 1⟩, ⟨.operator, "-", 1⟩,
      ⟨.endOfLine, "\n", 7⟩] ⟨none, 0⟩ = .ok (⟨[some (.assignment "#1" (some (.unknown "-" 7))),
        some (.endOfLine "\n")]⟩, [⟨.deepSigns 0, 7⟩]) := by
    rw [parse_eq_endMarkOn hne]
    exact Parse.Steps.parse_eq (.deepSign rfl rfl rfl (Int.le_refl 0)
      (fun _ ht => by cases ht; rfl) (.lineBreak rfl .nil)) hne
  refine ⟨_, _, _, _, _, _, parse_deepSign, by decide, hnil, hjoint, ?_⟩
  intro heq
  have hstatement := List.head_eq_of_cons_eq heq
  cases hstatement

end Gcode
