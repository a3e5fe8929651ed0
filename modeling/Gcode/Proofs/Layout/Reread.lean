import Gcode.Proofs.Layout.Ink
import Gcode.Proofs.Parse.FoldedProgram

/-!
# Reading what was formatted

Formatting changes the blanks of a program and the case of its keywords. What compacting takes
out of the program again makes no difference to the tree that is read, and neither does the case:
if the formatted program is compacted to the same text, up to case, as the source, it is read as
the same tree, with the same reports, and formatting it changes nothing.

## Main statements

* `Reading.Run.folded_eq` — texts that are compacted alike are read alike.
* `Reading.Run.program_eq_iff` — when what was formatted is read as the program it was made from.
* `formatSource_formatSource` — when formatting a second time changes nothing.
-/

namespace Gcode

open Text (Keeps ink)

/-! ## Texts that are compacted alike -/

/-- The lexer of a program at the same place of the folded text. -/
theorem Lexer.ofSource_folded {s t : Text}
    (h : Text.folded (compact s) = Text.folded (compact t)) :
    (ofSource s).folded = (ofSource t).folded := by
  have key : ∀ u : Text,
      (ofSource u).folded = ofCursor (Cursor.start (Text.folded (compact u))) := by
    intro u
    rfl
  rw [key, key, h]

namespace Reading.Run

variable {source text : Text} {limits : Limits}

/-- Texts that are compacted alike have the same tokens up to case, about which the same is
reported. -/
theorem tokens_folded_eq (run : Run source limits) (run' : Run text limits)
    (h : Text.folded (compact text) = Text.folded (compact source)) :
    (run'.tokens ++ [run'.stop]).map Token.folded = (run.tokens ++ [run.stop]).map Token.folded ∧
      run'.lexer.reports.map Report.folded = run.lexer.reports.map Report.folded := by
  have hs := (Lexer.ofSource source).run_folded
  have ht := (Lexer.ofSource text).run_folded
  rw [run.run_eq] at hs
  rw [run'.run_eq, Lexer.ofSource_folded h, hs] at ht
  obtain ⟨htokens, hlexer⟩ := Prod.mk.inj (Except.ok.inj ht)
  exact ⟨htokens.symm, congrArg Lexer.reports hlexer.symm⟩

/-- Texts that are compacted alike are read alike. -/
theorem folded_eq (run : Run source limits) (run' : Run text limits)
    (h : Text.folded (compact text) = Text.folded (compact source)) :
    run'.read.program.folded = run.read.program.folded ∧
      run'.reports.map Report.folded = run.reports.map Report.folded := by
  obtain ⟨htokens, -⟩ := run.tokens_folded_eq run' h
  rw [List.map_append, List.map_append] at htokens
  obtain ⟨htokens, hstop⟩ := List.append_inj' htokens rfl
  have hlength := congrArg List.length htokens
  rw [List.length_map, List.length_map] at hlength
  have hline := congrArg Token.line (List.cons.inj hstop).1
  rw [Token.line_folded, Token.line_folded] at hline
  have hsetting : (limits.setting run'.tokens run'.stop).folded =
      (limits.setting run.tokens run.stop).folded := by
    simp only [Limits.setting, Setting.folded, hlength, run.stop_value, run'.stop_value, hline]
  have hsource := Parse.outcome_folded _ run.outcome_eq
  have htext := Parse.outcome_folded _ run'.outcome_eq
  rw [hsetting, htokens, hsource] at htext
  obtain ⟨hprogram, hreports⟩ := Prod.mk.inj (Except.ok.inj htext)
  exact ⟨hprogram.symm, hreports.symm⟩

/-- The same problems are found on the same lines. -/
theorem diagnostics_eq (run : Run source limits) (run' : Run text limits)
    (h : Text.folded (compact text) = Text.folded (compact source)) :
    run'.read.diagnostics.map (fun d => (d.kind, d.line)) =
      run.read.diagnostics.map (fun d => (d.kind, d.line)) := by
  obtain ⟨-, hlexical⟩ := run.tokens_folded_eq run' h
  obtain ⟨-, hsyntactic⟩ := run.folded_eq run' h
  have places : ∀ rs : List Report, (rs.map Report.diagnostic).map (fun d => (d.kind, d.line)) =
      (rs.map Report.folded).map (fun r => (r.kind, r.line)) := by
    intro rs
    rw [List.map_map, List.map_map]
    refine List.map_congr_left fun r _ => ?_
    simp only [Function.comp_apply, Report.kind_folded, Report.line_folded]
    rfl
  simp only [ReadProgram.diagnostics, places, List.map_append]
  change _ = (run.lexer.reports.map Report.folded).map _ ++ (run.reports.map Report.folded).map _
  rw [← hlexical, ← hsyntactic]
  rfl

end Reading.Run

/-! ## Texts that are laid out -/

namespace Reading

variable {cut : Prop}

theorem Simple.parts_fragments {n : Node} {ahead rest : List Token}
    (h : Simple cut n ahead rest) : n.fragments.flatMap Fragment.parts = n.parts := by
  have tail : ∀ nodes : List (Option Node),
      (Node.tail (some (.commandLine nodes))).flatMap Fragment.parts = Node.partsOf nodes := by
    intro nodes
    cases nodes <;> simp [Node.tail, Fragment.parts, Node.partsOf]
  cases h with
  | lineBreak | comment | stray | assignment => simp [Node.fragments, Fragment.parts, Node.parts]
  | @commands nodes _ _ hne _ _ => simp [Node.fragments, Fragment.parts, Node.parts, hne]
  | flat =>
    rw [Node.fragments, List.flatMap_cons, tail]
    rfl

/-- The texts of the fragments are those of the tree. -/
theorem Statements.parts_fragments {nodes : List Node} {ahead rest : List Token}
    (h : Statements cut nodes ahead rest) :
    (Node.fragmentsOf (nodes.map some)).flatMap Fragment.parts =
      Node.partsOf (nodes.map some) := by
  induction h with
  | nil => rfl
  | simple h _ ih =>
    rw [List.map_cons, Node.fragmentsOf, List.flatMap_append, h.parts_fragments, ih]
    rfl
  | @block _ _ _ _ closing _ _ _ _ _ _ _ _ _ _ _ ihbody ih =>
    have hclosing : (closing.map fun node => Fragment.header (some node)).toList.flatMap
        Fragment.parts = Node.parts? closing := by
      cases closing <;> simp [Fragment.parts, Node.parts?]
    rw [List.map_cons, Node.fragmentsOf, Node.fragments, List.flatMap_append, List.flatMap_append,
      List.flatMap_cons, ihbody, hclosing, ih]
    rfl

theorem Program.parts_fragments {nodes : List Node} {ts : List Token}
    (h : Program cut nodes ts) :
    (Node.fragmentsOf (nodes.map some)).flatMap Fragment.parts =
      Node.partsOf (nodes.map some) := by
  cases h with
  | whole h => exact h.parts_fragments
  | cutOff line _ _ h =>
    rw [List.map_append, fragmentsOf_append, List.flatMap_append, h.parts_fragments,
      Node.partsOf_append]
    rfl

namespace Run

variable {source text : Text} {limits : Limits}

theorem unspaced_fragments (run : Run source limits) :
    run.fragments.flatMap Fragment.unspaced =
      run.read.program.node.parts.flatMap Part.lowered := by
  have key := congrArg (List.flatMap Part.lowered) run.reads.parts_fragments
  rw [List.flatMap_assoc] at key
  exact key

/-- What is laid out from a program is read as the same program, exactly if it is compacted to
the same text as the source, up to case. -/
theorem program_eq_iff (run : Run source limits) (run' : Run text limits)
    (h : Layout.Lays (.lineBreak [] :: run.fragments) text) :
    run'.read.program = run.read.program ↔
      Text.folded (compact text) = Text.folded (compact source) := by
  constructor
  · intro heq
    rw [run.spell.folded_eq, run'.spell.folded_eq, heq]
  · intro heq
    obtain ⟨hprogram, -⟩ := run.folded_eq run' heq
    have hink : Text.folded (ink text) = Text.folded (ink source) := by
      rw [← ink_compact text, ← ink_compact source, ← Text.ink_folded, heq, Text.ink_folded]
    have hunfrayed := (run.ink_iff h).mp hink
    have hkept := (run.keeps h).eq_iff.mpr hunfrayed
    have hcompact : compact text = run.fragments.flatMap Fragment.unspaced := by
      refine Text.eq_of_folded_eq_of_ink_eq ?_ ?_
      · rw [heq, run.folded_compact]
      · rw [ink_compact, hkept]
    have hspell := run'.spell
    rw [hcompact, run.unspaced_fragments] at hspell
    have hnode : run'.read.program.node = run.read.program.node := by
      refine Node.eq_of_spell ?_ hspell
      exact congrArg Program.node hprogram
    exact congrArg Program.mk (Node.program.inj hnode)

/-- Then formatting changes nothing. -/
theorem written_eq (run : Run source limits) (run' : Run text limits) {width : Int}
    (h : Layout.Lays (.lineBreak [] :: run.fragments) text)
    (hwritten : run.read.program.written width = .ok text)
    (heq : Text.folded (compact text) = Text.folded (compact source)) :
    formatSource text ⟨width, limits, "ngc"⟩ = .ok ⟨text, run'.read, false⟩ := by
  rw [← (run.program_eq_iff run' h).mpr heq] at hwritten
  have key := run'.formatSource_eq hwritten
  simpa using key

end Run

end Reading

/-! ## Formatting twice -/

/-- A formatted program is read as the program that was formatted exactly if it is compacted to
the same text as the source, up to case, and then formatting it again changes nothing. -/
theorem formatSource_formatSource (source : Text) (width : Int) (limits : Limits) :
    ∃ once twice, formatSource source ⟨width, limits, "ngc"⟩ = .ok once ∧
      formatSource once.text ⟨width, limits, "ngc"⟩ = .ok twice ∧
      (twice.read.program = once.read.program ↔
        Text.folded (compact once.text) = Text.folded (compact source)) ∧
      (Text.folded (compact once.text) = Text.folded (compact source) →
        twice.text = once.text) := by
  obtain ⟨run⟩ := Reading.nonempty_run source limits
  obtain ⟨t, hwritten, hlays⟩ := run.lays width
  obtain ⟨run'⟩ := Reading.nonempty_run t limits
  obtain ⟨t', hwritten', -⟩ := run'.lays width
  refine ⟨_, _, run.formatSource_eq hwritten, run'.formatSource_eq hwritten',
    run.program_eq_iff run' hlays, fun heq => ?_⟩
  have hsame := run.written_eq run' hlays hwritten heq
  rw [run'.formatSource_eq hwritten'] at hsame
  obtain ⟨rfl, -⟩ := Formatted.mk.inj (Except.ok.inj hsame)
  rfl

/-- Stray text behind the name that is assigned is written with a space in front of it. -/
theorem written_stray (text : Text) (line : Int) :
    Program.written ⟨[some (.assignment "#1" (some (.parameter "<;>"))),
      some (.unknown text line)]⟩ 2 = .ok ("#1 = <;> " ++ text) := by
  have hexpression : Layout.expression (some (.parameter "<;>")) = .ok "<;>" := by
    rw [Layout.expression, Style.text_eq_plainText?]
    rfl
  have hfirst : Layout.statement 2 0 Layout.Page.blank
      (.assignment "#1" (some (.parameter "<;>"))) = .ok (Layout.Page.blank.put "#1 = <;>") := by
    rw [Layout.statement, hexpression]
    rfl
  have hstart : (Layout.Page.blank.put "#1 = <;>").atLineStart = false := by decide
  have hsecond : Layout.statement 2 0 (Layout.Page.blank.put "#1 = <;>") (.unknown text line) =
      .ok ⟨[text, " ", "#1 = <;>"]⟩ := by
    rw [Layout.statement, hstart, Bool.and_false, if_neg Bool.false_ne_true]
    rfl
  have hpage : Program.page ⟨[some (.assignment "#1" (some (.parameter "<;>"))),
      some (.unknown text line)]⟩ 2 = .ok ⟨[text, " ", "#1 = <;>"]⟩ := by
    change Layout.statements 2 (fun _ => .ok 0) Layout.Page.blank _ = _
    simp only [Layout.statements, Layout.statement?, bind, Except.bind, hfirst, hsecond]
  rw [Program.written, hpage]
  simp [Except.map, Layout.Page.text]

/-- Blanks behind a name with a semicolon in it are stray text, to which each formatting adds a
space. -/
theorem formatSource_stray {source blanks : Text}
    (htokens : (Lexer.ofSource source).run.toOption.map Prod.fst =
      some ([⟨.parameter, "#1", 1⟩, ⟨.assign, "=", 1⟩, ⟨.parameter, "<;>", 1⟩,
        ⟨.unknown, blanks, 1⟩] ++ [⟨.endOfFile, [], 1⟩])) :
    ∃ result, formatSource source {} = .ok result ∧ result.text = "#1 = <;> " ++ blanks := by
  obtain ⟨run⟩ := Reading.nonempty_run source {}
  have hsteps := @Parse.Steps.assignment
    (({} : Limits).setting [⟨.parameter, "#1", 1⟩, ⟨.assign, "=", 1⟩, ⟨.parameter, "<;>", 1⟩,
      ⟨.unknown, blanks, 1⟩] ⟨.endOfFile, [], 1⟩) ⟨.parameter, "#1", 1⟩ ⟨.assign, "=", 1⟩
    ⟨.parameter, "<;>", 1⟩ rfl rfl rfl [⟨.unknown, blanks, 1⟩] (by simp [Parse.isOperator]) _ _
    (.unknown rfl)
  obtain ⟨-, hnodes, -⟩ := run.eq_of_steps htokens hsteps (by simp [Limits.setting])
  refine ⟨_, run.formatSource_eq ?_, rfl⟩
  rw [Reading.Run.read, hnodes]
  exact written_stray blanks 1

/-- Formatting a formatted program may change it. -/
theorem formatSource_formatSource_ne :
    ∃ once twice, formatSource "#1=<;> " {} = .ok once ∧ formatSource once.text {} = .ok twice ∧
      twice.text ≠ once.text := by
  obtain ⟨once, honce, hfirst⟩ := @formatSource_stray "#1=<;> " " " (by decide +kernel)
  obtain ⟨twice, htwice, hsecond⟩ := @formatSource_stray once.text "  " (by
    rw [hfirst]
    decide +kernel)
  refine ⟨once, twice, honce, htwice, ?_⟩
  rw [hfirst, hsecond]
  decide

end Gcode
