import Gcode.Proofs.Layout.Reread
import Gcode.Proofs.Layout.Typeset

/-!
# Formatting and reading back

The formatted program holds the tokens of the program, laid out, if no name ends in white space.
Compacting takes the blanks out again if no comment begins in a name. So the formatted program is
read as the program that was formatted, whatever is wrong with it, as long as no limit cuts a part
of it off.

## Main definitions

* `Reading.Typeset` — a fragment that is laid out from tokens.
* `Reading.Precedes` — fragments that are laid out one behind the other.

## Main statements

* `Reading.Piece.typeset` — a fragment is laid out from its tokens.
* `Reading.Precedes.laid` — what is laid out fragment by fragment is laid out token by token.
* `formatSource_roundTrip` — a formatted program is read as the program that was formatted.
-/

namespace Gcode

open Token (Laid)

namespace Reading

/-! ## Fragments -/

/-- The tokens of `ahead` before `rest` are laid out in the text of the fragment, and if their line
goes on, there is nothing to trim at its end. -/
def Typeset (f : Fragment) (ahead rest : List Token) : Prop :=
  ∀ text, f.written = .ok text → ∃ used, ahead = used ++ rest ∧ Laid used text ∧
    (f.isLineBreak = false → ¬AtLineEnd rest → text.Ended)

theorem Sets.typeset {f : Fragment} {ahead rest : List Token}
    (h : ∀ text, f.written = .ok text → Sets ahead rest text ∧ (¬AtLineEnd rest → text.Ended)) :
    Typeset f ahead rest := by
  intro text hw
  obtain ⟨⟨used, hused, -, hlaid⟩, hended⟩ := h text hw
  exact ⟨used, hused, hlaid, fun _ => hended⟩

/-- A fragment is laid out from its tokens. -/
theorem Piece.typeset {f : Fragment} {ahead rest : List Token} (h : Piece False f ahead rest)
    (ht : Token.Tidy ahead) (hf : f.isTail = true → Fronted ahead) : Typeset f ahead rest := by
  cases h with
  | lineBreak rest hk =>
    intro text hw
    cases hw
    exact ⟨[_], rfl, .single .verbatim, fun hb => absurd hb (by simp [Fragment.isLineBreak])⟩
  | comment rest hk =>
    intro text hw
    cases hw
    exact ⟨[_], rfl, .single .verbatim, fun _ => ended_comment ht hk⟩
  | @stray used _ _ _ hused _ hend =>
    intro text hw
    cases hw
    exact ⟨used, hused, .verbatim used, fun _ => absurd hend⟩
  | assignment hk hu h =>
    refine Sets.typeset fun text hw => ?_
    obtain ⟨value, hvalue, rfl⟩ := map_eq_ok.mp hw
    obtain ⟨hset, hended⟩ := sets_assignment ht hk hu h hvalue
    exact ⟨hset, fun _ => hended⟩
  | header h =>
    refine Sets.typeset fun text hw => ?_
    obtain ⟨hset, hended⟩ := h.sets ht hw
    exact ⟨hset, fun _ => hended⟩
  | commands hne hhead h =>
    refine Sets.typeset fun text hw => ?_
    obtain ⟨texts, htexts, rfl⟩ := map_eq_ok.mp hw
    exact sets_commands h ht (fronted_of_kind ht hhead) htexts
  | tail hne h =>
    refine Sets.typeset fun text hw => ?_
    obtain ⟨line, hline, rfl⟩ := map_eq_ok.mp hw
    obtain ⟨texts, htexts, rfl⟩ := map_eq_ok.mp hline
    obtain ⟨hset, hended⟩ := sets_commands h ht (hf rfl) htexts
    have hnil := hset.ne_nil (length_commands_lt h hne)
    exact ⟨hset.spaced hnil, fun hend => Text.ended_append (s := [' ']) hnil (hended hend)⟩

/-- Behind a fragment that leaves its line open, no blanks stand in front. -/
theorem Piece.fronted {f : Fragment} {ahead rest : List Token} (h : Piece False f ahead rest)
    (ht : Token.Tidy ahead) (hf : f.isLineBreak = false) : Fronted rest := by
  obtain ⟨used, rfl, hline⟩ := h.spans hf
  refine fronted_of_tidy ht ?_ hline
  rintro rfl
  exact Nat.lt_irrefl _ h.length_lt

/-- A statement other than blank text begins with something that is to be seen. -/
theorem Piece.fronted_ahead {f : Fragment} {ahead rest : List Token} (h : Piece False f ahead rest)
    (ht : Token.Tidy ahead) (ho : f.opens = true) (hb : f.isBlankText = false) : Fronted ahead := by
  cases h with
  | lineBreak => cases ho
  | comment rest hk => exact fronted_of_kind ht (by simp [hk])
  | @stray used _ _ hne hused hline _ =>
    obtain ⟨t, used, rfl⟩ := List.exists_cons_of_ne_nil hne
    subst hused
    have htl := hline t List.mem_cons_self
    intro u hu
    obtain rfl : t = u := Option.some.inj hu
    cases used with
    | nil =>
      have hvalue : Text.isBlankOnly t.value = false := by simpa [Fragment.isBlankText] using hb
      exact .inr ⟨htl, hvalue⟩
    | cons u used =>
      have hul := hline u (by simp)
      have hapart : Token.Apart t u := (List.isChain_cons_cons.mp ht.apart).1
      exact .inr ((hapart.resolve_left htl).resolve_left hul).1
  | assignment hk => exact fronted_of_kind ht (by simp [hk])
  | header h =>
    cases h with
    | bare hword | keyed hword => exact fronted_of_kind ht (by simp [Parse.isOWord_kind hword])
  | commands _ hhead _ => exact fronted_of_kind ht hhead
  | tail => cases ho

/-- Blanks may stand before a fragment that is to be seen. -/
theorem Piece.blanks {f : Fragment} {ahead rest : List Token} (h : Piece False f ahead rest)
    (hf : f.isLineBreak = false) (hfront : Fronted ahead) {b u : Text}
    (hb : Text.isBlankOnly b = true) (hu : Laid ahead u) : Laid ahead (b ++ u) := by
  obtain ⟨used, rfl, hline⟩ := h.spans hf
  cases used with
  | nil => exact absurd h.length_lt (Nat.lt_irrefl _)
  | cons t used =>
    have hvis := (hfront t rfl).resolve_left (hline t List.mem_cons_self)
    exact hu.blanks hb hvis

/-! ## Programs -/

/-- Where nothing is cut off, a program is its statements. -/
theorem Program.statements {nodes : List Node} {ts : List Token} (h : Program False nodes ts) :
    Statements False nodes ts [] := by
  cases h with
  | whole h => exact h
  | cutOff _ hcut => exact hcut.elim

/-- The fragment is laid out from the tokens of `ahead` before `rest`, and the fragments that
follow it stand for the rest. -/
structure Precedes (f : Fragment) (fs : List Fragment) (ahead rest : List Token) : Prop where
  typeset : Typeset f ahead rest
  fronted : f.isLineBreak = false → Fronted rest
  pieces : Series (Piece False) fs rest []
  tidy : Token.Tidy rest
  joins : (f :: fs).IsChain Joins

/-- What holds of a fragment holds of the next one. -/
theorem Precedes.next {f g : Fragment} {fs : List Fragment} {ahead rest : List Token}
    (h : Precedes f (g :: fs) ahead rest) :
    ∃ behind, Piece False g rest behind ∧ Precedes g fs rest behind := by
  obtain ⟨-, hfront, hpieces, ht, hjoins⟩ := h
  cases hpieces with
  | @cons _ _ _ behind _ hg hfs =>
    obtain ⟨hjoin, hjoins⟩ := List.isChain_cons_cons.mp hjoins
    exact ⟨behind, hg, hg.typeset ht fun htail => hfront (hjoin htail), hg.fronted ht, hfs,
      ht.of_suffix hg.suffix, hjoins⟩

/-- Fragments that are laid out one behind the other are laid out from their tokens. -/
theorem Precedes.laid {gs : List Fragment} {t : Text} (h : Layout.Lays gs t) {f : Fragment}
    {fs : List Fragment} (hgs : gs = f :: fs) {ahead rest : List Token}
    (hp : Precedes f fs ahead rest) : Laid ahead t := by
  -- The blanks between two fragments are put before the tokens of the second one.
  induction h generalizing f fs ahead rest with
  | single hw =>
    obtain ⟨rfl, rfl⟩ := List.cons.inj hgs
    cases hp.pieces
    obtain ⟨used, rfl, hlaid, -⟩ := hp.typeset _ hw
    rwa [List.append_nil]
  | put hw _ _ ih =>
    obtain ⟨rfl, rfl⟩ := List.cons.inj hgs
    obtain ⟨used, rfl, hlaid, -⟩ := hp.typeset _ hw
    obtain ⟨behind, -, hnext⟩ := hp.next
    exact hlaid.append (ih rfl hnext)
  | indented n hw _ hopens hb _ ih =>
    obtain ⟨rfl, rfl⟩ := List.cons.inj hgs
    obtain ⟨used, rfl, hlaid, -⟩ := hp.typeset _ hw
    obtain ⟨behind, hg, hnext⟩ := hp.next
    have hfront := hg.fronted_ahead hp.tidy hopens hb
    refine hlaid.append (hg.blanks (Fragment.isLineBreak_of_opens hopens) hfront ?_ (ih rfl hnext))
    rw [← Text.ink_eq_nil_iff, Text.ink_replicate_space]
  | spaced hw hf hopens _ ih =>
    obtain ⟨rfl, rfl⟩ := List.cons.inj hgs
    obtain ⟨used, rfl, hlaid, hended⟩ := hp.typeset _ hw
    obtain ⟨behind, hg, hnext⟩ := hp.next
    have hbreak := Fragment.isLineBreak_of_opens hopens
    rw [Text.trimRight_of_ended (hended hf (hg.not_atLineEnd hbreak))]
    exact hlaid.append (hg.blanks (b := [' ']) hbreak (hp.fronted hf) rfl (ih rfl hnext))

end Reading

/-! ## Whole programs -/

namespace Reading.Run

variable {source text : Text} {limits : Limits}

/-- The tokens of a program that no guard cut off are laid out in the formatted program. -/
theorem laid (run : Run source limits) (hguard : ¬Guarded run.reports)
    (ht : Token.Tidy run.tokens) (h : Layout.Lays (.lineBreak [] :: run.fragments) text) :
    Laid run.tokens text := by
  have hreads := run.reads
  rw [eq_false hguard] at hreads
  have hstatements := hreads.statements
  have hfirst : Typeset (.lineBreak []) run.tokens run.tokens := by
    intro t hw
    cases hw
    exact ⟨[], rfl, .nil, fun hf => by cases hf⟩
  exact Precedes.laid h rfl
    ⟨hfirst, fun hf => (by cases hf), hstatements.pieces, ht, hstatements.joins⟩

/-- The formatted program is compacted to the same text as the source, up to case. -/
theorem folded_compact_eq (run : Run source limits) (hguard : ¬Guarded run.reports)
    (hmarks : ∀ t ∈ run.tokens, t.Unmarked)
    (hends : ∀ t ∈ run.tokens, t.kind = .parameter → t.value.Ended)
    (h : Layout.Lays (.lineBreak [] :: run.fragments) text) :
    Text.folded (compact text) = Text.folded (compact source) := by
  have hcompact : compact (Token.texts run.tokens) = Token.texts run.tokens := by
    rw [run.texts_eq, compact_compact]
  have ht : Token.Tidy run.tokens :=
    ⟨run.lexed, run.lexed.apart hmarks Text.unbroken_nil Text.balanced_nil hcompact, hends⟩
  rw [← run.texts_eq]
  exact (run.laid hguard ht h).folded_compact run.lexed hmarks hcompact

end Reading.Run

/-- A formatted program is read as the program that was formatted, with problems of the same kinds
on the same lines, and formatting it again changes nothing, if no limit was reached, no comment
begins in a name, and no name ends in white space. -/
theorem formatSource_roundTrip (source : Text) (width : Int) (limits : Limits) :
    ∃ tokens lexer once, (Lexer.ofSource source).run = .ok (tokens, lexer) ∧
      formatSource source ⟨width, limits, "ngc"⟩ = .ok once ∧
      ((∀ d ∈ once.read.diagnostics, d.kind ≠ .livenessGuard) →
        (∀ t ∈ tokens, t.kind = .parameter → ';' ∉ t.value ∧ '(' ∉ t.value) →
        (∀ t ∈ tokens, t.kind = .parameter → ∀ c ∈ t.value.getLast?, Text.isSpace c = false) →
        ∃ again, readProgram once.text limits = .ok again ∧
          again.program = once.read.program ∧
          again.diagnostics.map (fun d => (d.kind, d.line)) =
            once.read.diagnostics.map (fun d => (d.kind, d.line)) ∧
          formatSource once.text ⟨width, limits, "ngc"⟩ = .ok ⟨once.text, again, false⟩) := by
  obtain ⟨run⟩ := Reading.nonempty_run source limits
  obtain ⟨t, hwritten, hlays⟩ := run.lays width
  obtain ⟨run'⟩ := Reading.nonempty_run t limits
  refine ⟨_, _, _, run.run_eq, run.formatSource_eq hwritten, fun hguard hmarks hends => ?_⟩
  have hreports : ¬Guarded run.reports := by
    rintro ⟨r, hr, hk⟩
    refine hguard r.diagnostic ?_ hk
    exact List.mem_map_of_mem (List.mem_append_right _ hr)
  have heq := run.folded_compact_eq hreports (fun t ht => hmarks t (List.mem_append_left _ ht))
    (fun t ht => hends t (List.mem_append_left _ ht)) hlays
  exact ⟨run'.read, run'.readProgram_eq, (run.program_eq_iff run' hlays).mpr heq,
    run.diagnostics_eq run' heq, run.written_eq run' hlays hwritten heq⟩

/-- The assignment of a parameter is read back. -/
theorem formatSource_roundTrip_parameter :
    ∃ once again, formatSource "#1=<a>" {} = .ok once ∧ once.read.diagnostics = [] ∧
      readProgram once.text {} = .ok again ∧ again.program = once.read.program ∧
      formatSource once.text {} = .ok ⟨once.text, again, false⟩ := by
  obtain ⟨tokens, lexer, once, hrun, honce, hagain⟩ := formatSource_roundTrip "#1=<a>" 2 {}
  obtain ⟨run⟩ := Reading.nonempty_run "#1=<a>" {}
  obtain ⟨t, hwritten, -⟩ := run.lays 2
  have htokens : (Lexer.ofSource "#1=<a>").run.toOption.map Prod.fst =
      some ([⟨.parameter, "#1", 1⟩, ⟨.assign, "=", 1⟩, ⟨.parameter, "<a>", 1⟩] ++
        [⟨.endOfFile, [], 1⟩]) := by decide +kernel
  have hlexical : (Lexer.ofSource "#1=<a>").run.toOption.map (fun r => r.2.reports) =
      some [] := by decide +kernel
  obtain ⟨-, -, hreports⟩ := @Reading.Run.eq_of_assignment _ run "#1" "<a>" htokens
  have hread : once.read = run.read := by
    rw [run.formatSource_eq hwritten] at honce
    rw [← Except.ok.inj honce]
  have hnone : once.read.diagnostics = [] := by
    rw [run.run_eq] at hlexical
    have hlexer : run.lexer.reports = [] := Option.some.inj hlexical
    rw [hread, ReadProgram.diagnostics]
    simp only [Reading.Run.read, hlexer, hreports, List.append_nil, List.map_nil]
  rw [hrun] at htokens
  obtain rfl := Option.some.inj htokens
  obtain ⟨again, hread', hprogram, -, hformat⟩ :=
    hagain (by simp [hnone]) (by simp) (by simp; decide)
  exact ⟨once, again, honce, hnone, hread', hprogram, hformat⟩

end Gcode
