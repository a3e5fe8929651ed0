import Gcode.Proofs.Parse.Origin

/-!
# Brackets that are left open

Lexer and parser agree on closing brackets. The lexer counts the brackets of the whole program; the
parser reads an expression behind an opening bracket and looks for the closing one where the
expression ends. On its way it closes no more brackets than it opens, whether it reads the tokens,
cuts them off or leaves further brackets open. So the bracket is still open in the lexer's count
there, and a `]` that stands there was read as a closing bracket.

## Main statements

* `Reading.Expression.closings_le` — an expression closes no bracket that was opened before it.
* `Reading.Expression.kind_of_head?` — a `]` behind an expression in a bracket is a closing one.
* `readProgram_brackets` — lexer and parser agree on the brackets of a program.
-/

namespace Gcode

open Gcode.Part (Spell)
open Token (texts openings closings)

namespace Reading

variable {cut : Prop} {n : Option Node} {t u : Token} {ahead rest : List Token}

/-- The tokens of an expression close no bracket that was opened before them. -/
theorem Expression.closings_le (h : Expression cut n ahead rest) :
    ∃ used, ahead = used ++ rest ∧ closings used ≤ openings used := by
  refine h.exists_used (P := fun us => closings us ≤ openings us) (Nat.le_refl 0)
    (fun us vs hus hvs => ?_) (fun t ht => ?_) (fun t us u ht hu hus => ?_)
    fun us _ _ hcount => hcount
  · rw [Token.closings_append, Token.openings_append]
    exact Nat.add_le_add hus hvs
  · have hclose : t.kind ≠ .closeBracket := ne_of_mem_of_not_mem ht (by decide)
    rw [Token.closings_cons, if_neg hclose]
    exact Nat.zero_le _
  · rw [Token.closings_append, Token.openings_append, Token.closings_cons, Token.openings_cons,
      if_neg (by rw [ht]; decide), if_pos ht, Token.closings_cons, Token.openings_cons, if_pos hu,
      if_neg (by rw [hu]; decide), Token.closings_nil, Token.openings_nil]
    omega

/-- Where an expression ends that is read behind an opening bracket, `]` is a closing bracket: for
the lexer, too, the bracket is still open there. -/
theorem Expression.kind_of_head? {k : Nat} (h : Expression cut n ahead (u :: rest))
    (hb : Bracketed k (t :: ahead)) (ht : t.kind = .openBracket)
    (hu : u.value.head? = some ']') : u.kind = .closeBracket := by
  obtain ⟨used, rfl, hcount⟩ := h.closings_le
  obtain ⟨m, hm, hopen⟩ := (hb.of_opening ht).append_right
  exact hm.kind_of_head? (by omega) hu

/-- A bracket that is left open was read as an expression. -/
theorem Reads.unclosed {inner : Option Node}
    (h : Reads cut (some (.bracketed inner false)) ahead rest) :
    ∃ t behind, ahead = t :: behind ∧ t.kind = .openBracket ∧
      (∀ u ∈ rest.head?, u.kind ≠ .closeBracket) ∧ Expression cut inner behind rest := by
  have hread : Expression cut (some (.bracketed inner false)) ahead rest := by
    cases h with
    | expression h => exact h
    | command h =>
      cases h with
      | expression h => exact h
    | header h => cases h
    | simple h => cases h
  cases hread with
  | unclosed ht hnext hinner => exact ⟨_, _, rfl, ht, hnext, hinner⟩

/-- No `]` follows a bracket that is left open. -/
theorem Reads.head?_ne {inner : Option Node} {k : Nat}
    (h : Reads cut (some (.bracketed inner false)) ahead rest) (hs : Shaped ahead)
    (hb : Bracketed k ahead) : (texts rest).head? ≠ some ']' := by
  intro hhead
  obtain ⟨t, behind, rfl, ht, hnext, hinner⟩ := h.unclosed
  cases rest with
  | nil => cases hhead
  | cons u rest =>
    refine hnext u rfl (hinner.kind_of_head? hb ht ?_)
    have hne := ((hs.tail.of_suffix hinner.suffix).head).ne_nil
    obtain ⟨c, v, hv⟩ := List.exists_cons_of_ne_nil hne
    rw [Token.texts_cons, hv] at hhead
    rw [hv]
    exact hhead

end Reading

/-- Where the parser looks for the bracket that closes an opening one, at whatever depth, a `]` is a
closing bracket. -/
theorem Parse.kind_of_value_rest (s : Setting) (hstop : s.stop.value = []) (depth : Nat) {t : Token}
    {ahead : List Token} {k : Nat} (hb : Bracketed k (t :: ahead)) (ht : t.kind = .openBracket)
    (hnext : (current s (value s (depth + 1) ahead).rest).value = "]") :
    (current s (value s (depth + 1) ahead).rest).kind = .closeBracket := by
  have hread := @value_reads s True (depth + 1) ahead fun _ => trivial
  generalize (value s (depth + 1) ahead).rest = rest at hread hnext ⊢
  cases rest with
  | nil =>
    rw [current_nil, hstop] at hnext
    cases hnext
  | cons u rest =>
    rw [current_cons] at hnext ⊢
    exact hread.kind_of_head? hb ht (by rw [hnext]; rfl)

/-- Lexer and parser agree on the brackets of a program. At no place more brackets were closed than
opened, and a `]` outside comments and names is stray text exactly where as many were closed as
opened. Where the parser looks for the bracket that closes an opening one, a `]` is a closing
bracket. So no `]` follows a bracket that is left open, wherever it stands in the tree: not in the
program, and not even where blanks are left out. -/
theorem readProgram_brackets (source : Text) (limits : Limits) :
    ∃ ts stop r, tokens source = .ok (ts ++ [stop]) ∧ stop.kind = .endOfFile ∧
      readProgram source limits = .ok r ∧
      (∀ before after, ts ++ [stop] = before ++ after → closings before ≤ openings before) ∧
      (∀ (before : List Token) (t : Token) (after : List Token), ts ++ [stop] = before ++ t :: after →
        t.IsCode → ']' ∈ t.value → t.value = "]" ∧
          (t.kind = .unknown ↔ closings before = openings before) ∧
          (t.kind = .closeBracket ↔ closings before ≠ openings before)) ∧
      (∀ depth (before : List Token) (t : Token) (ahead : List Token), ts = before ++ t :: ahead →
        t.kind = .openBracket →
        let s := limits.setting ts stop
        let next := Parse.current s (Parse.value s (depth + 1) ahead).rest
        next.value = "]" → next.kind = .closeBracket) ∧
      ∀ inner before behind, Node.Stands (.bracketed inner false) before behind r.program.node →
        ∃ x y u v w, source = x ++ y ∧ Text.Thinned x (u ++ v) ∧ Text.Thinned y w ∧
          compact source = u ++ v ++ w ∧ Spell before u ∧
          Spell (Node.bracketed inner false).parts v ∧ Spell behind w ∧
          y.head? ≠ some ']' ∧ w.head? ≠ some ']' := by
  obtain ⟨run⟩ := Reading.nonempty_run source limits
  have hb : Bracketed 0 (run.tokens ++ [run.stop]) := bracketed_ofSource run.run_eq
  refine ⟨run.tokens, run.stop, run.read, tokens_of_run run.run_eq, run.stop_kind,
    run.readProgram_eq, ?_, ?_, ?_, ?_⟩
  · intro before after hts
    rw [hts] at hb
    exact hb.closings_le
  · intro before t after hts hcode hmem
    rw [hts] at hb
    exact hb.stray_iff hcode hmem
  · intro depth before t ahead hts ht s next
    have hall := hb.append_left
    rw [hts] at hall
    obtain ⟨m, hm, -⟩ := hall.append_right
    exact Parse.kind_of_value_rest s run.stop_value depth hm ht
  · intro inner before behind hstands
    obtain ⟨first, last, x, y, u, v, hread, hfirst, hcut, hx, hy, hcompact, hu, hv, hw⟩ :=
      run.exists_region hstands
    obtain ⟨m, hm⟩ := hb.append_left.of_suffix hfirst
    have hhead := hread.head?_ne (Reading.Shaped.of_suffix run.lexed.shape hfirst) hm
    exact ⟨x, y, u, v, texts last, hcut, hx, hy, hcompact, hu, hv, hw,
      fun hnext => hhead (hy.head?_eq hnext rfl), hhead⟩

end Gcode
