import Gcode.Proofs.Parse.Statement

/-!
# Nothing but statements reaches beyond a line

The tokens that a part of a statement is read from, and those of a whole statement that is no
block, stand on one line: no line break is among them.

## Main definitions

* `Reading.Spans` — the tokens up to a rest stand on one line.

## Main statements

* `Reading.Header.spans`, `Reading.spans_commands` — the parts of statements stand on one line.
-/

namespace Gcode.Reading

variable {cut : Prop}

/-- The tokens of `ahead` that stand before `rest` are on one line. -/
def Spans (ahead rest : List Token) : Prop := ∃ used, ahead = used ++ rest ∧ OnLine used

namespace Spans

theorem refl (ahead : List Token) : Spans ahead ahead := ⟨[], rfl, by simp [OnLine]⟩

theorem trans {ahead behind rest : List Token} (h : Spans ahead behind) (k : Spans behind rest) :
    Spans ahead rest := by
  obtain ⟨us, rfl, hus⟩ := h
  obtain ⟨vs, rfl, hvs⟩ := k
  refine ⟨us ++ vs, by rw [List.append_assoc], ?_⟩
  intro t ht
  rcases List.mem_append.mp ht with ht | ht
  · exact hus t ht
  · exact hvs t ht

theorem single {t : Token} (ht : t.kind ≠ .endOfLine) (rest : List Token) :
    Spans (t :: rest) rest := ⟨[t], rfl, by simpa [OnLine] using ht⟩

theorem cons {t : Token} {ahead rest : List Token} (ht : t.kind ≠ .endOfLine)
    (h : Spans ahead rest) : Spans (t :: ahead) rest := (single ht ahead).trans h

end Spans

theorem Expression.spans {n : Option Node} {ahead rest : List Token}
    (h : Expression cut n ahead rest) : Spans ahead rest :=
  h.forall_used (fun _ ht => ne_of_mem_of_not_mem ht (by decide)) fun _ _ hline => hline

theorem Command.spans {n : Node} {ahead rest : List Token} (h : Command cut n ahead rest) :
    Spans ahead rest := by
  cases h with
  | comment rest ht => exact .single (by rw [ht]; decide) rest
  | expression h => exact h.spans
  | stray _ _ hused hline _ => exact ⟨_, hused, hline⟩

theorem spans_commands {nodes : List Node} {ahead rest : List Token}
    (h : Series (Command cut) nodes ahead rest) : Spans ahead rest := by
  induction h with
  | nil ahead => exact .refl ahead
  | cons hc _ ih => exact hc.spans.trans ih

theorem Header.spans {n : Node} {ahead rest : List Token} (h : Header cut n ahead rest) :
    Spans ahead rest := by
  cases h with
  | bare ht hl => exact .cons (by rw [Parse.isOWord_kind ht]; decide) hl.spans
  | keyed ht hl hu hc =>
    exact .cons (by rw [Parse.isOWord_kind ht]; decide)
      (hl.spans.trans (.cons (by rw [hu]; decide) hc.spans))

end Gcode.Reading
