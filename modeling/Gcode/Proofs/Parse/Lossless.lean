import Gcode.Format
import Gcode.Proofs.Node.Part
import Gcode.Proofs.Parse.Statement

/-!
# Reading a program loses nothing

The texts that the tree of a program holds, read from left to right, are the compacted program:
each token of it has exactly one place in the tree, whatever is wrong with the program and
wherever a limit on nesting or on rounds cuts a part of it off.

## Main definitions

* `Reading.Reaches` — parts that stand for a text up to a given rest.

## Main statements

* `Reading.Statements.reaches` — what statements hold are the tokens that they are read from.
* `readProgram_lossless` — reading a program succeeds and loses nothing.
-/

namespace Gcode

open Gcode.Part (Spell)
open Token (texts)

namespace Reading

/-- The parts stand for the text `t` up to its end part `u`. -/
def Reaches (parts : List Part) (t u : Text) : Prop := ∃ s, Spell parts s ∧ t = s ++ u

namespace Reaches

theorem refl (t : Text) : Reaches [] t t := ⟨[], .nil, rfl⟩

theorem verbatim (t u : Text) : Reaches [.verbatim t] (t ++ u) u := ⟨t, .verbatim t, rfl⟩

theorem append {ps qs : List Part} {t u v : Text} (h : Reaches ps t u) (k : Reaches qs u v) :
    Reaches (ps ++ qs) t v := by
  obtain ⟨s, hs, rfl⟩ := h
  obtain ⟨s', hs', rfl⟩ := k
  exact ⟨s ++ s', hs.append hs', by rw [List.append_assoc]⟩

theorem cons {part : Part} {ps : List Part} {s u v : Text} (h : part.Admits s)
    (k : Reaches ps u v) : Reaches (part :: ps) (s ++ u) v :=
  append ⟨s, .single h, rfl⟩ k

end Reaches

variable {cut : Prop}

/-! ## Each token has its place -/

/-- All tokens look as their classes say. -/
def Shaped (ts : List Token) : Prop := ∀ t ∈ ts, Token.Shape t.kind t.value

theorem Shaped.of_suffix {ts us : List Token} (h : Shaped ts) (hs : us <:+ ts) : Shaped us :=
  fun t ht => h t (hs.subset ht)

theorem Shaped.head {t : Token} {ts : List Token} (h : Shaped (t :: ts)) :
    Token.Shape t.kind t.value := h t List.mem_cons_self

theorem Shaped.tail {t : Token} {ts : List Token} (h : Shaped (t :: ts)) : Shaped ts :=
  h.of_suffix (List.suffix_cons t ts)

theorem Expression.reaches {n : Option Node} {ahead rest : List Token}
    (h : Expression cut n ahead rest) (hs : Shaped ahead) :
    Reaches (Node.parts? n) (texts ahead) (texts rest) := by
  induction h with
  | missing ahead => exact .refl _
  | number | parameter => exact .verbatim _ _
  | word _ _ ih | call _ _ ih | unary _ _ ih =>
    exact .cons rfl (ih hs.tail)
  | binary _ hl _ ihl ihr =>
    have hbehind := hs.of_suffix hl.suffix
    exact (ihl hs).append (.cons rfl (ihr hbehind.tail))
  | @closed t u inner ahead rest ht hu hi ih =>
    have hopen : t.value = "[" := Token.Shape.eq_openBracket (ht ▸ hs.head)
    have hclose : u.value = "]" := by
      have hu' := (hs.tail.of_suffix hi.suffix).head
      rw [hu] at hu'
      exact hu'.eq_closeBracket
    refine .cons hopen ((ih hs.tail).append ?_)
    rw [Token.texts_cons, hclose]
    exact .verbatim _ _
  | @unclosed t inner ahead rest ht _ _ ih =>
    have hopen : t.value = "[" := Token.Shape.eq_openBracket (ht ▸ hs.head)
    rw [Node.parts?, Node.parts, if_neg Bool.false_ne_true, List.append_nil]
    exact .cons hopen (ih hs.tail)
  | cutOff _ _ hused _ _ =>
    rw [hused, Token.texts_append]
    exact .verbatim _ _

theorem Command.reaches {n : Node} {ahead rest : List Token} (h : Command cut n ahead rest)
    (hs : Shaped ahead) : Reaches n.parts (texts ahead) (texts rest) := by
  cases h with
  | comment => exact .verbatim _ _
  | expression h => exact h.reaches hs
  | stray _ _ hused _ _ =>
    rw [hused, Token.texts_append]
    exact .verbatim _ _

theorem reaches_commands {nodes : List Node} {ahead rest : List Token}
    (h : Series (Command cut) nodes ahead rest) (hs : Shaped ahead) :
    Reaches (Node.partsOf (nodes.map some)) (texts ahead) (texts rest) := by
  induction h with
  | nil => exact .refl _
  | cons hc _ ih => exact (hc.reaches hs).append (ih (hs.of_suffix hc.suffix))

theorem Header.reaches {n : Node} {ahead rest : List Token} (h : Header cut n ahead rest)
    (hs : Shaped ahead) : Reaches n.parts (texts ahead) (texts rest) := by
  cases h with
  | bare _ hl =>
    refine .cons rfl ?_
    have hnone : Reaches [.keyword []] (texts rest) (texts rest) :=
      @Reaches.cons _ _ [] _ _ ⟨by simp [Text.Ascii], rfl⟩ (.refl _)
    exact (hl.reaches hs.tail).append hnone
  | keyed _ hl hu hc =>
    refine .cons rfl ((hl.reaches hs.tail).append ?_)
    have hbehind := hs.tail.of_suffix hl.suffix
    have hflow := hbehind.head
    rw [hu] at hflow
    exact .cons ⟨hflow.ascii, (Text.folded_upper hflow.ascii).symm⟩ (hc.reaches hbehind.tail)

theorem Closing.reaches {n : Option Node} {ahead rest : List Token}
    (h : Closing cut n ahead rest) (hs : Shaped ahead) :
    Reaches (Node.parts? n) (texts ahead) (texts rest) := by
  cases h with
  | missing => exact .refl _
  | header h => exact h.reaches hs

theorem Simple.reaches {n : Node} {ahead rest : List Token} (h : Simple cut n ahead rest)
    (hs : Shaped ahead) : Reaches n.parts (texts ahead) (texts rest) := by
  cases h with
  | lineBreak | comment => exact .verbatim _ _
  | stray _ _ hused _ _ =>
    rw [hused, Token.texts_append]
    exact .verbatim _ _
  | assignment ht hu h =>
    have hassign := hs.tail.head
    rw [hu] at hassign
    exact .cons rfl (.cons hassign.eq_assign (h.reaches hs.tail.tail))
  | commands _ _ h => exact reaches_commands h hs
  | flat hh hc => exact (hh.reaches hs).append (reaches_commands hc (hs.of_suffix hh.suffix))

/-- The texts that statements hold are those of the tokens that they are read from. -/
theorem Statements.reaches {nodes : List Node} {ahead rest : List Token}
    (h : Statements cut nodes ahead rest) (hs : Shaped ahead) :
    Reaches (Node.partsOf (nodes.map some)) (texts ahead) (texts rest) ∧ rest <:+ ahead := by
  induction h with
  | nil => exact ⟨.refl _, List.suffix_rfl⟩
  | simple h _ ih =>
    obtain ⟨hmore, hsuffix⟩ := ih (hs.of_suffix h.suffix)
    exact ⟨(h.reaches hs).append hmore, hsuffix.trans h.suffix⟩
  | block hh _ hc _ ihbody ih =>
    have hinside := hs.of_suffix hh.suffix
    obtain ⟨hbody, hbodySuffix⟩ := ihbody hinside
    have hlast := hinside.of_suffix hbodySuffix
    obtain ⟨hmore, hsuffix⟩ := ih (hlast.of_suffix hc.suffix)
    refine ⟨((hh.reaches hs).append hbody).append (hc.reaches hlast) |>.append hmore, ?_⟩
    exact hsuffix.trans (hc.suffix.trans (hbodySuffix.trans hh.suffix))

/-- A program that is read from tokens spells their texts. -/
theorem Program.spell {nodes : List Node} {ts : List Token} (h : Program cut nodes ts)
    (hs : Shaped ts) : Spell (Node.partsOf (nodes.map some)) (texts ts) := by
  cases h with
  | whole h =>
    obtain ⟨s, hspell, htext⟩ := (h.reaches hs).1
    rw [Token.texts_nil, List.append_nil] at htext
    rw [htext]
    exact hspell
  | cutOff line _ _ h =>
    obtain ⟨s, hspell, htext⟩ := (h.reaches hs).1
    rw [htext, List.map_append, Node.partsOf_append]
    exact hspell.append (.verbatim _)

end Reading

/-! ## Whole programs -/

/-- A program text with its tokens, of which `stop` is the end mark, and with what reading it
comes to: the statements are read from all of the tokens. -/
structure Reading.Run (source : Text) (limits : Limits) where
  tokens : List Token
  stop : Token
  lexer : Lexer
  nodes : List Node
  reports : List Report
  run_eq : (Lexer.ofSource source).run = .ok (tokens ++ [stop], lexer)
  stop_kind : stop.kind = .endOfFile
  stop_value : stop.value = []
  lexed : Lexed tokens
  texts_eq : texts tokens = compact source
  outcome_eq : Parse.outcome (limits.setting tokens stop) tokens = .ok (⟨nodes.map some⟩, reports)
  reads : Reading.Program (Guarded reports) nodes tokens

namespace Reading.Run

variable {source : Text} {limits : Limits}

/-- What was read. -/
def read (run : Run source limits) : ReadProgram :=
  ⟨⟨run.nodes.map some⟩, run.tokens.length + 1, run.lexer.reports, run.reports⟩

theorem readProgram_eq (run : Run source limits) : readProgram source limits = .ok run.read := by
  unfold readProgram
  rw [run.run_eq]
  dsimp only
  rw [parse_eq_outcome run.lexed.kind_ne_endOfFile run.stop_kind, run.outcome_eq,
    List.length_append, List.length_singleton]
  rfl

theorem spell (run : Run source limits) : Spell run.read.program.node.parts (compact source) := by
  rw [← run.texts_eq]
  exact run.reads.spell run.lexed.shape

end Reading.Run

/-- Every program text can be read, whatever the limits are. -/
theorem Reading.nonempty_run (source : Text) (limits : Limits) :
    Nonempty (Reading.Run source limits) := by
  obtain ⟨ts, stop, l, hrun, hstop, hvalue, hlexed, htexts⟩ := tokens_ofSource source
  obtain ⟨nodes, reports, hparse, hreads⟩ :=
    Parse.outcome_reads (limits.setting ts stop) hlexed.kind_ne_endOfFile
  exact ⟨⟨ts, stop, l, nodes, reports, hrun, hstop, hvalue, hlexed, htexts, hparse, hreads⟩⟩

/-- Reading a program loses nothing, doubles nothing and keeps the order: the texts that the tree
holds, one behind the other, are the compacted program, up to the case of the keywords of
headers. -/
theorem readProgram_lossless (source : Text) (limits : Limits) :
    ∃ r, readProgram source limits = .ok r ∧
      Spell r.program.node.parts (compact source) ∧
      Text.folded r.program.node.flat = Text.folded (compact source) := by
  obtain ⟨run⟩ := Reading.nonempty_run source limits
  exact ⟨run.read, run.readProgram_eq, run.spell, run.spell.folded_eq.symm⟩

end Gcode
