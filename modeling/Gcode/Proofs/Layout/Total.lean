import Gcode.Proofs.Layout.Fragment
import Gcode.Proofs.Parse.Rounds

/-!
# Nothing fails

Reading, parsing and writing can all be refused: there is no token before the first one, a node
that is no label cannot be compared as one, and a tree with a node in a place where it does not
belong has no canonical form. None of this happens to a program that is formatted. Parsing and
writing do not depend on the tokens being those of a text: whatever a token list holds, it is
parsed, and its program can be written.

## Main statements

* `Session.peek_one` — the token behind the one at hand is the one that the parser looks at.
* `exists_parse_writtenAs` — every token list holds a program, which can be written.
* `formatSource_total` — every program text is formatted.
-/

namespace Gcode

/-! ## Looking ahead -/

namespace Session

/-- The token at an offset from the place, or the last token. -/
theorem peek_natCast {session : Session} {offset : Nat} {t : Token}
    (h : session.tokens[min (session.position + offset) (session.tokens.length - 1)]? = some t) :
    session.peek offset = .ok t := by
  obtain ⟨hlt, -⟩ := List.getElem?_eq_some_iff.mp h
  have hplace : min ((session.position : Int) + offset) ((session.tokens.length : Int) - 1) =
      (min (session.position + offset) (session.tokens.length - 1) : Nat) := by
    omega
  have hstart : ¬((session.position : Int) + offset < 0) := by omega
  generalize min (session.position + offset) (session.tokens.length - 1) = place at h hplace
  have hfirst : ¬((place : Int) < 0) := Int.not_lt.mpr (Int.natCast_nonneg place)
  simp only [peek, if_neg hstart, hplace, if_neg hfirst, Int.toNat_natCast, h]

/-- There is a token at every offset from the place. -/
theorem exists_peek {session : Session} (hne : session.tokens ≠ []) (offset : Nat) :
    ∃ t, session.peek offset = .ok t := by
  have hpos := List.length_pos_iff.mpr hne
  have hlt : min (session.position + offset) (session.tokens.length - 1) <
      session.tokens.length := by
    omega
  exact ⟨_, peek_natCast (List.getElem?_eq_getElem hlt)⟩

/-- The end mark of a session is the first one among the tokens. -/
theorem stop_eq {session : Session} {stop : Token} {more : List Token}
    (h : session.tokens = session.readable ++ stop :: more) (hstop : stop.kind = .endOfFile) :
    session.setting.stop = stop := by
  have hnone : session.readable.find? (fun t => t.kind = .endOfFile) = none := by
    rw [List.find?_eq_none]
    intro t ht
    simpa using session.kind_ne_of_mem_readable ht
  have hmark : session.endMark = stop := by
    rw [endMark, h, List.find?_append, hnone]
    simp [hstop]
  have hkind : session.setting.stop = ⟨.endOfFile, session.endMark.value, session.endMark.line⟩ :=
    rfl
  rw [hkind, hmark, ← hstop]

/-- The token behind the one at hand is the one that the parser looks at, which is the end mark if
there is no other. -/
theorem peek_one {session : Session} {stop : Token} {more : List Token}
    (h : session.tokens = session.readable ++ stop :: more) (hstop : stop.kind = .endOfFile)
    (hcurrent : session.current.kind ≠ .endOfFile) :
    session.peek 1 = .ok (Parse.current session.setting session.ahead.tail) := by
  have hahead : session.ahead ≠ [] := Parse.ne_nil_of_current hcurrent
  have hposition : session.position < session.readable.length := by
    by_contra hle
    exact hahead (List.drop_eq_nil_of_le (Nat.le_of_not_lt hle))
  have htail : Parse.current session.setting session.ahead.tail =
      session.readable[session.position + 1]?.getD stop := by
    rw [Parse.current, stop_eq h hstop, ahead, List.tail_drop, List.headD_eq_head?_getD,
      List.head?_drop]
  have hlength := congrArg List.length h
  rw [List.length_append, List.length_cons] at hlength
  have hmin : min (session.position + 1) (session.tokens.length - 1) = session.position + 1 := by
    omega
  refine @peek_natCast session 1 _ ?_
  rw [hmin, htail, h]
  by_cases hlast : session.position + 1 < session.readable.length
  · rw [List.getElem?_append_left hlast, List.getElem?_eq_getElem hlast]
    rfl
  · have hend : session.position + 1 = session.readable.length := by omega
    rw [hend, List.getElem?_append_right (Nat.le_refl _), Nat.sub_self,
      List.getElem?_eq_none (Nat.le_refl _)]
    rfl

end Session

/-! ## Writing what was parsed -/

/-- A program that was read can be written in the form of every target. -/
theorem Reading.Program.exists_writtenAs {cut : Prop} {nodes : List Node} {ts : List Token}
    (h : Reading.Program cut nodes ts) (target : Target) (width : Int)
    (diagnostics : List Diagnostic) :
    ∃ text, (⟨nodes.map some⟩ : Gcode.Program).writtenAs target width diagnostics = .ok text := by
  cases target with
  | ngc =>
    obtain ⟨page, hpage, -⟩ := h.writes width
    refine ⟨page.text, ?_⟩
    rw [Gcode.Program.writtenAs, Gcode.Program.written, hpage]
    rfl
  | json => exact ⟨_, rfl⟩

/-- Every token list holds a program, which can be written in the form of every target. -/
theorem exists_parse_writtenAs (tokens : List Token) (limits : Limits) :
    ∃ program reports, parse tokens limits = .ok (program, reports) ∧
      ∀ target width diagnostics, ∃ text,
        program.writtenAs target width diagnostics = .ok text := by
  let session := Session.ofTokens tokens limits
  obtain ⟨nodes, reports, hparse, hreads⟩ :=
    Parse.outcome_reads session.setting fun _ ht => session.kind_ne_of_mem_readable ht
  refine ⟨⟨nodes.map some⟩, reports, ?_, fun target width diagnostics =>
    hreads.exists_writtenAs target width diagnostics⟩
  rw [parse_eq_readable]
  exact hparse

/-! ## Formatting -/

/-- The formatter of a target is found by the name of the target. -/
theorem Formatter.ofOptions_name (width : Int) (limits : Limits) (target : Target) :
    Formatter.ofOptions [] ⟨width, limits, target.name⟩ =
      .ok ⟨target, ⟨width, limits, target.name⟩⟩ := by
  cases target <;> rfl

/-- A program text that was read is formatted for every target. -/
theorem Reading.Run.exists_formatSource {source : Text} {limits : Limits}
    (run : Reading.Run source limits) (width : Int) (target : Target) :
    ∃ result, formatSource source ⟨width, limits, target.name⟩ = .ok result ∧
      result.read = run.read := by
  obtain ⟨text, htext⟩ := run.reads.exists_writtenAs target width run.read.diagnostics
  refine ⟨⟨text, run.read, target = .ngc && text ≠ source⟩, ?_, rfl⟩
  have hwrite : Formatter.write ⟨target, ⟨width, limits, target.name⟩⟩ run.read.program
      run.read.diagnostics = .ok text := htext
  rw [formatSource, Formatter.ofOptions_name]
  simp only [Formatter.format, Formatter.read, run.readProgram_eq, hwrite]

/-- Every program text is formatted, whatever the indentation, the limits and the target are. Its
tokens are read to the end of the text. Whatever a token list holds, it is parsed, its program can
be written, and wherever the parser stands, there is a token right behind the one at hand: the one
that it looks at. -/
theorem formatSource_total :
    (∀ (source : Text) (width : Int) (limits : Limits) (target : Target),
      ∃ result, formatSource source ⟨width, limits, target.name⟩ = .ok result) ∧
    (∀ source : Text, ∃ tokens lexer, (Lexer.ofSource source).run = .ok (tokens, lexer)) ∧
    ∀ (tokens : List Token) (limits : Limits),
      (∃ program reports, parse tokens limits = .ok (program, reports) ∧
        ∀ target width diagnostics, ∃ text,
          program.writtenAs target width diagnostics = .ok text) ∧
      ∀ (position depth : Nat) (reports : List Report),
        let session : Session := ⟨withEndMark tokens, limits, position, depth, reports⟩
        (∃ t, session.peek 1 = .ok t) ∧
          (session.current.kind ≠ .endOfFile →
            session.peek 1 = .ok (Parse.current session.setting session.ahead.tail)) := by
  refine ⟨fun source width limits target => ?_, fun source => ?_, fun tokens limits =>
    ⟨exists_parse_writtenAs tokens limits, fun position depth reports => ?_⟩⟩
  · obtain ⟨run⟩ := Reading.nonempty_run source limits
    obtain ⟨result, hresult, -⟩ := run.exists_formatSource width target
    exact ⟨result, hresult⟩
  · obtain ⟨run⟩ := Reading.nonempty_run source {}
    exact ⟨_, _, run.run_eq⟩
  · obtain ⟨stop, more, htokens, hstop⟩ := exists_withEndMark_eq tokens limits
    have hne : withEndMark tokens ≠ [] := by
      rw [htokens]
      exact List.append_ne_nil_of_right_ne_nil _ (List.cons_ne_nil _ _)
    intro session
    exact ⟨session.exists_peek hne 1, session.peek_one htokens hstop⟩

end Gcode
