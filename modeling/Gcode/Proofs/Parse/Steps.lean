import Gcode.Proofs.Parse.Lossless

/-!
# Programs read step by step

The program of some tokens is known once each of its statements is: they are read one after the
other, and as long as the limit on rounds allows it, nothing else happens.

## Main definitions

* `Parse.Steps` — statements read one after the other, from the first of the tokens to the last.

## Main statements

* `Parse.Steps.outcome_eq` — the program is made of these statements.
* `Parse.Steps.assignment` — the assignment of a parameter is one of them.
-/

namespace Gcode

namespace Parse

variable (s : Setting)

/-! ## Statements that are known -/

/-- A parameter is an expression, unless an operator follows. -/
theorem value_parameter (depth : Nat) {t : Token} (ht : t.kind = .parameter) (rest : List Token)
    (hrest : ∀ u ∈ rest.head?, isOperator u = false) :
    value s depth (t :: rest) = ⟨some (.parameter t.value), rest, [], List.suffix_cons t rest⟩ := by
  have hsigns : signs (t :: rest) = Parsed.pure [] (t :: rest) := by
    rw [signs, if_neg (by simp [isSign, ht])]
  have hprimary : ∀ d, primary s d (t :: rest) =
      ⟨some (.parameter t.value), rest, [], List.suffix_cons t rest⟩ := by
    intro d
    rw [primary.eq_def]
    simp only [ht]
    rfl
  have hoperand : operand s depth (t :: rest) =
      ⟨some (.parameter t.value), rest, [], List.suffix_cons t rest⟩ := by
    rw [operand, hsigns]
    refine (if_neg (Nat.not_lt_zero _)).trans ?_
    dsimp only [Parsed.pure]
    rw [hprimary]
    rfl
  have hchain : ∀ n h, chain s depth n h 0 rest = Parsed.pure n rest := by
    intro n h
    rw [chain.eq_def]
    cases rest with
    | nil => rfl
    | cons u rest =>
      have hu : binds u 0 = false := by simp [binds, hrest u rfl]
      simp [hu]
  rw [value, hoperand]
  dsimp only
  rw [hchain]
  rfl

/-- The assignment of a parameter to a parameter is read, and what lies behind is left. -/
theorem statement_assignment (depth : Nat) {t u v : Token} (ht : t.kind = .parameter)
    (hu : u.kind = .assign) (hv : v.kind = .parameter) (rest : List Token)
    (hrest : ∀ w ∈ rest.head?, isOperator w = false) :
    ∃ h, statement s depth (t :: u :: v :: rest) =
      .ok ⟨.assignment t.value (some (.parameter v.value)), rest, [], h⟩ := by
  have hstart : startsAssignment s (t :: u :: v :: rest) = true := by
    simp [startsAssignment, current, ht, hu]
  have hexpect : expect s .assign (u :: v :: rest) = (advance s (u :: v :: rest)).map some :=
    expect_cons_of_eq s hu _
  refine ⟨⟨[t, u, v], rfl⟩, ?_⟩
  have hassignment : assignment s depth (t :: u :: v :: rest) =
      ⟨.assignment t.value (some (.parameter v.value)), rest, [], ⟨[t, u, v], rfl⟩⟩ := by
    rw [assignment]
    dsimp only [advance, List.tail_cons]
    rw [hexpect]
    dsimp only [advance, List.tail_cons, Parsed.map, Parsed.behind]
    rw [value_parameter s depth hv rest hrest]
    rfl
  simp [statement, ht, hstart, hassignment]

theorem statement_unknown (depth : Nat) {t : Token} (ht : t.kind = .unknown) (rest : List Token) :
    statement s depth (t :: rest) = .ok (unknown s (t :: rest)) := by
  simp [statement, ht]

/-! ## Programs -/

/-- Statements read one after the other from the first of the tokens to the last, with what was
reported. -/
inductive Steps : List Token → List Node → List Report → Prop
  | nil : Steps [] [] []
  | cons {ahead : List Token} {p : Parsed Node ahead} {nodes : List Node} {reports : List Report} :
    (current s ahead).kind ≠ .endOfFile → statement s 0 ahead = .ok p →
    p.rest.length < ahead.length → Steps p.rest nodes reports →
    Steps ahead (p.value :: nodes) (p.reports ++ reports)

variable {s}

theorem Steps.turns_eq {ahead start : List Token} {nodes : List Node} {reports : List Report}
    (h : Steps s ahead nodes reports) {n : Nat} (hn : nodes.length < n) (hs : ahead <:+ start) :
    ∃ k, turns s "program" start (fun ahead _ => programTurn s 0 ahead) n ahead hs =
      .ok ⟨(nodes, some ()), [], reports, k⟩ := by
  induction h generalizing n with
  | nil =>
    obtain ⟨n, rfl⟩ := Nat.exists_eq_add_of_lt hn
    exact ⟨List.suffix_rfl, rfl⟩
  | @cons ahead p nodes reports hne hp hlt _ ih =>
    obtain ⟨m, rfl⟩ := Nat.exists_eq_add_of_lt hn
    obtain ⟨k, hk⟩ := @ih (nodes.length + 1 + m) (by omega) (p.suffix.trans hs)
    refine ⟨List.nil_suffix, ?_⟩
    rw [turns_of_item (programTurn_item hne hp) hlt, List.length_cons, hk]
    rfl

/-- What is read step by step are statements. -/
theorem Steps.statements {ahead : List Token} {nodes : List Node} {reports : List Report}
    (h : Steps s ahead nodes reports) : Reading.Statements True nodes ahead [] := by
  induction h with
  | nil => exact .nil []
  | cons hne hp _ _ ih =>
    obtain ⟨p, hp', hreads⟩ := @statement_reads s True 0 _ hne
    obtain rfl := Except.ok.inj (hp.symm.trans hp')
    exact (hreads fun _ => trivial).append ih

/-- A program whose statements can be read one after the other is made of them, if that many
rounds are allowed. -/
theorem Steps.outcome_eq {ahead : List Token} {nodes : List Node} {reports : List Report}
    (h : Steps s ahead nodes reports) (hn : nodes.length < s.maxRounds) :
    outcome s ahead = .ok (⟨nodes.map some⟩, reports) := by
  obtain ⟨k, hk⟩ := h.turns_eq (n := s.maxRounds.toNat) (by omega) List.suffix_rfl
  have hleftovers : leftovers s [] = Parsed.pure [] [] := rfl
  rw [outcome, program_eq_loop, loop, hk]
  simp [Except.map, Parsed.map, Parsed.behind, hleftovers, Parsed.pure]

/-- A parameter to which a parameter is assigned. -/
theorem Steps.assignment {t u v : Token} (ht : t.kind = .parameter) (hu : u.kind = .assign)
    (hv : v.kind = .parameter) {rest : List Token} (hrest : ∀ w ∈ rest.head?, isOperator w = false)
    {nodes : List Node} {reports : List Report} (h : Steps s rest nodes reports) :
    Steps s (t :: u :: v :: rest) (.assignment t.value (some (.parameter v.value)) :: nodes)
      reports := by
  obtain ⟨_, hp⟩ := statement_assignment s 0 ht hu hv rest hrest
  exact .cons (by simp [ht]) hp (by simp; omega) h

/-- Stray text at the end of a program. -/
theorem Steps.unknown {t : Token} (ht : t.kind = .unknown) :
    Steps s [t] [.unknown t.value t.line]
      (if Text.isBlankOnly t.value then [] else [⟨.strayText t.value, t.line⟩]) := by
  have hrest : (Parse.unknown s [t]).rest = [] := rfl
  have key := Steps.cons (by simp [ht]) (statement_unknown s 0 ht []) (by simp [hrest]) .nil
  simpa [Parse.unknown, restOfLine, Parsed.pure] using key

end Parse

/-- A run over known tokens, whose statements are known, reads these statements. -/
theorem Reading.Run.eq_of_steps {source : Text} {limits : Limits}
    (run : Reading.Run source limits) {ts : List Token} {stop : Token}
    (htokens : (Lexer.ofSource source).run.toOption.map Prod.fst = some (ts ++ [stop]))
    {nodes : List Node} {reports : List Report}
    (hsteps : Parse.Steps (limits.setting ts stop) ts nodes reports)
    (hn : nodes.length < (limits.setting ts stop).maxRounds) :
    run.tokens = ts ∧ run.nodes = nodes ∧ run.reports = reports := by
  rw [run.run_eq] at htokens
  obtain ⟨hts, hstop⟩ := List.append_inj' (Option.some.inj htokens) rfl
  obtain rfl : run.stop = stop := List.singleton_inj.mp hstop
  have houtcome := run.outcome_eq
  rw [hts, hsteps.outcome_eq hn] at houtcome
  obtain ⟨hnodes, hreports⟩ := Prod.mk.inj (Except.ok.inj houtcome)
  have hinj : ∀ a b : Node, some a = some b → a = b := fun _ _ => Option.some.inj
  exact ⟨hts, ((List.map_inj_right hinj).mp (Program.mk.inj hnodes)).symm, hreports.symm⟩

/-- A run over the tokens of an assigned parameter reads the assignment. -/
theorem Reading.Run.eq_of_assignment {source : Text} (run : Reading.Run source {})
    {target value : Text} (htokens : (Lexer.ofSource source).run.toOption.map Prod.fst =
      some ([⟨.parameter, target, 1⟩, ⟨.assign, "=", 1⟩, ⟨.parameter, value, 1⟩] ++
        [⟨.endOfFile, [], 1⟩])) :
    run.tokens = [⟨.parameter, target, 1⟩, ⟨.assign, "=", 1⟩, ⟨.parameter, value, 1⟩] ∧
      run.nodes = [.assignment target (some (.parameter value))] ∧ run.reports = [] := by
  have hsteps := @Parse.Steps.assignment
    (({} : Limits).setting [⟨.parameter, target, 1⟩, ⟨.assign, "=", 1⟩, ⟨.parameter, value, 1⟩]
      ⟨.endOfFile, [], 1⟩) ⟨.parameter, target, 1⟩ ⟨.assign, "=", 1⟩ ⟨.parameter, value, 1⟩
    rfl rfl rfl [] (by simp) _ _ .nil
  exact run.eq_of_steps htokens hsteps (by simp [Limits.setting])

end Gcode
