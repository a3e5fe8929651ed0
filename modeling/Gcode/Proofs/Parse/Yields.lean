import Gcode.Proofs.Parse.Climb

/-!
# Expressions read step by step

What an expression yields is known once that of its first operand is known and that of each of the
operators behind it, one after the other: an operator that binds loose enough is left, one within
the limit on nesting takes its right operand, and one beyond it takes the rest as text.

## Main definitions

* `Parsed.Yields` — the value, the tokens that are left, and the reports of a parse function.

## Main statements

* `Parse.value_yields` — an expression, by its first operand and the operators behind it.
* `Parse.link_within`, `Parse.link_beyond` — an operator within the limit, and one beyond it.
* `Parse.tighten_link` — an operator that binds tighter than the one before it.
-/

namespace Gcode

/-- A parse function came to the value, left `rest` and reported `reports`. -/
structure Parsed.Yields {α : Type} {ahead : List Token} (p : Parsed α ahead) (value : α)
    (rest : List Token) (reports : List Report) : Prop where
  value_eq : p.value = value
  rest_eq : p.rest = rest
  reports_eq : p.reports = reports

namespace Parsed

variable {α β : Type} {ahead rest : List Token} {reports : List Report} {value : α}

theorem Yields.exists_eq {p : Parsed α ahead} (h : p.Yields value rest reports) :
    ∃ hsuffix, p = ⟨value, rest, reports, hsuffix⟩ := by
  obtain ⟨_, _, _, hsuffix⟩ := p
  obtain ⟨rfl, rfl, rfl⟩ := h
  exact ⟨hsuffix, rfl⟩

theorem Yields.map {p : Parsed α ahead} (h : p.Yields value rest reports) (f : α → β) :
    (p.map f).Yields (f value) rest reports :=
  ⟨congrArg f h.value_eq, h.rest_eq, h.reports_eq⟩

theorem Yields.behindToken {p : Parsed α ahead} (h : p.Yields value rest reports) (t : Token) :
    (p.behindToken t).Yields value rest reports := ⟨h.value_eq, h.rest_eq, h.reports_eq⟩

theorem Yields.behind {p : Parsed β ahead} (hp : p.reports = reports) {q : Parsed α p.rest}
    {reports' : List Report} (h : q.Yields value rest reports') :
    (p.behind q).Yields value rest (reports ++ reports') :=
  ⟨h.value_eq, h.rest_eq, by rw [Parsed.behind, hp, h.reports_eq]⟩

end Parsed

namespace Parse

open Keyword (precedence)
open Node (height)

variable {s : Setting} {depth : Nat} {ahead behind rest : List Token} {t : Token}
  {left right n : Option Node} {least bound : Int} {rs rs' rs'' : List Report}

/-- An expression is its first operand with the operators behind it. -/
theorem value_yields (h : (operand s depth ahead).Yields left behind rs)
    (hchain : (chain s depth left (height left) 0 behind).Yields n rest rs') :
    (value s depth ahead).Yields n rest (rs ++ rs') := by
  obtain ⟨_, h⟩ := h.exists_eq
  obtain ⟨_, hchain⟩ := hchain.exists_eq
  rw [value, h]
  dsimp only
  rw [hchain]
  exact ⟨rfl, rfl, rfl⟩

theorem operand_number (ht : t.kind = .number) (rest : List Token) :
    (operand s depth (t :: rest)).Yields (some (.number t.value)) rest [] := by
  rw [operand_eq_primary s depth (by simp [isSign, ht]), primary.eq_def]
  simp only [ht]
  exact ⟨rfl, rfl, rfl⟩

/-! ## Operators behind an operand -/

/-- An operator is left if it binds loose. -/
theorem chain_done (h : ∀ t ∈ ahead.head?, binds t least = false) (height : Nat) :
    (chain s depth left height least ahead).Yields left ahead [] := by
  match ahead with
  | [] =>
    rw [chain]
    exact ⟨rfl, rfl, rfl⟩
  | t :: rest =>
    rw [chain, if_neg (by simp [h t rfl])]
    exact ⟨rfl, rfl, rfl⟩

/-- An operator within the limit takes its right operand, to which belong the operators that bind
tighter. -/
theorem link_within {size : Nat} (hd : (depth + size : Nat) < s.maxDepth) {first : Option Node}
    {middle : List Token} (h : (operand s depth ahead).Yields first middle rs)
    (hright : (tighten s depth first (precedence t.value) middle).Yields right behind rs')
    (hchain : (chain s depth (some (.binary t.value left right)) (1 + max size (height right))
      least behind).Yields n rest rs'') :
    (link s depth t left size least ahead).Yields n rest (rs ++ rs' ++ rs'') := by
  obtain ⟨_, h⟩ := h.exists_eq
  obtain ⟨_, hright⟩ := hright.exists_eq
  obtain ⟨_, hchain⟩ := hchain.exists_eq
  rw [link, if_neg (by omega), h]
  dsimp only
  rw [hright]
  dsimp only [Parsed.behind]
  rw [hchain]
  exact ⟨rfl, rfl, rfl⟩

/-- An operator beyond the limit takes the rest of the expression as text. -/
theorem link_beyond {size : Nat} (hd : s.maxDepth ≤ (depth + size : Nat)) {text : Text}
    (h : (cutOffText s 0 ahead).Yields text rest []) :
    (link s depth t left size least ahead).Yields
      (some (.binary t.value left (some (.unknown text (current s ahead).line)))) rest
      [⟨.deepChain s.maxDepth, (current s ahead).line⟩] := by
  obtain ⟨_, h⟩ := h.exists_eq
  rw [link, if_pos (by omega), cutOff, h]
  exact ⟨rfl, rfl, rfl⟩

theorem chain_link {size : Nat} (hb : binds t least = true)
    (h : (link s depth t left size least ahead).Yields n rest rs) :
    (chain s depth left size least (t :: ahead)).Yields n rest rs := by
  rw [chain, if_pos hb]
  exact h.behindToken t

theorem tighten_done (h : ∀ t ∈ ahead.head?, binds t (bound + 1) = false) :
    (tighten s depth right bound ahead).Yields right ahead [] := by
  match ahead with
  | [] =>
    rw [tighten]
    exact ⟨rfl, rfl, rfl⟩
  | t :: rest =>
    rw [tighten, if_neg (by exact Bool.eq_false_iff.mp (h t rfl))]
    exact ⟨rfl, rfl, rfl⟩

theorem tighten_link (hb : binds t (bound + 1) = true) {tighter : Option Node}
    (h : (link s depth t right (height right) (precedence t.value) ahead).Yields tighter behind rs)
    (hmore : (tighten s depth tighter bound behind).Yields n rest rs') :
    (tighten s depth right bound (t :: ahead)).Yields n rest (rs ++ rs') := by
  obtain ⟨_, h⟩ := h.exists_eq
  obtain ⟨_, hmore⟩ := hmore.exists_eq
  rw [tighten, if_pos (by exact hb), h]
  dsimp only [Parsed.behindToken]
  rw [hmore]
  exact ⟨rfl, rfl, rfl⟩

end Parse

end Gcode
