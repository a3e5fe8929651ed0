import Gcode.Proofs.Token.Laid
import Mathlib.Data.List.DropRight

/-!
# Blanks among the tokens

Compacting takes out the blanks of code, so those that the lexer meets between two tokens were kept
for one of two reasons: nothing else is on their line, or compacting takes them for a part of a
comment. Compacting and the lexer disagree about what is a comment only behind a name in which one
begins: a name is read as a whole, but compacting does not know of names.

## Main definitions

* `Region.behind` — what a line has come to behind some text.
* `Token.lineOf` — the tokens that stand before another one on its line.
* `Token.Alone` — a token that is all its line holds.

## Main statements

* `Region.behind_ne_code` — a blank that compacting keeps does not stand in code.
* `tokens_blanks` — when blanks that are a token fill their line.
-/

namespace Gcode

namespace Region

/-- The region that a line has come to behind the text `u`, which `rest` follows. -/
def behind : Region → Text → Text → Region
  | region, [], _ => region
  | region, c :: u, rest => behind (region.next c (u ++ rest)) u rest

/-- Only the next character matters of what follows. -/
theorem behind_congr (region : Region) (u : Text) {rest rest' : Text}
    (h : rest.head? = rest'.head?) : region.behind u rest = region.behind u rest' := by
  induction u generalizing region with
  | nil => rfl
  | cons c u ih =>
    have hhead : (u ++ rest).head? = (u ++ rest').head? := by
      rw [List.head?_append, List.head?_append, h]
    have hnext : region.next c (u ++ rest) = region.next c (u ++ rest') := by
      cases region with
      | code => simp only [next, hhead]
      | parenthesized | remainder => rfl
    rw [behind, behind, hnext, ih]

/-- A blank that compacting keeps does not stand in code. -/
theorem behind_ne_code {region : Region} {u : Text} {c : Char} (hc : Text.isBlank c = true)
    {rest : Text} (h : compact region (u ++ c :: rest) = u ++ c :: rest) :
    region.behind u (c :: rest) ≠ .code := by
  induction u generalizing region with
  | nil =>
    rintro rfl
    rw [List.nil_append, compact_cons, if_pos (by simp [hc])] at h
    exact compact_ne_cons _ c rest h
  | cons d u ih =>
    rw [List.cons_append, compact_cons] at h
    split at h
    · exact absurd h (compact_ne_cons _ d _)
    · exact ih (List.cons.inj h).2

end Region

namespace Token

/-! ## The line of a token -/

/-- The tokens behind the last line break. -/
def lineOf (before : List Token) : List Token :=
  before.rtakeWhile fun t => t.kind ≠ .endOfLine

/-- Between these tokens, a token is all that its line holds. -/
structure Alone (before after : List Token) : Prop where
  first : ∀ u ∈ before.getLast?, u.kind = .endOfLine
  last : ∃ u ∈ after.head?, u.kind = .endOfLine ∨ u.kind = .endOfFile

theorem kind_of_mem_lineOf (before : List Token) :
    ∀ t ∈ lineOf before, t.kind ≠ .endOfLine := by
  intro t ht
  simpa using List.mem_rtakeWhile_imp ht

/-- Behind a token that is not the end mark, the end mark still comes. -/
theorem exists_append_stop {ts before after : List Token} {t stop : Token}
    (h : ts ++ [stop] = before ++ t :: after) (ht : t ≠ stop) :
    ∃ us, after = us ++ [stop] ∧ ts = before ++ t :: us := by
  cases after using List.reverseRecOn with
  | nil =>
    obtain ⟨-, hlast⟩ := List.append_inj' h rfl
    exact absurd (List.cons.inj hlast).1.symm ht
  | append_singleton us u =>
    rw [← List.cons_append, ← List.append_assoc] at h
    obtain ⟨hinit, hlast⟩ := List.append_inj' h rfl
    exact ⟨us, by rw [hlast], hinit⟩

/-- Before its line, tokens end in a line break. -/
theorem exists_append_lineOf (before : List Token) : ∃ front, before = front ++ lineOf before ∧
    ∀ u ∈ front.getLast?, u.kind = .endOfLine := by
  refine ⟨before.rdropWhile fun t => t.kind ≠ .endOfLine,
    List.rdropWhile_append_rtakeWhile.symm, fun u hu => ?_⟩
  obtain ⟨hne, rfl⟩ := List.mem_getLast?_eq_getLast hu
  simpa using List.rdropWhile_last_not _ _ hne

theorem lineOf_eq_nil_iff (before : List Token) :
    lineOf before = [] ↔ ∀ u ∈ before.getLast?, u.kind = .endOfLine := by
  rw [lineOf, List.rtakeWhile_eq_nil_iff]
  cases before using List.reverseRecOn with
  | nil => simp
  | append_singleton us u _ => simp

/-- Behind its line, tokens begin with a line break. -/
theorem exists_lineOf_append (after : List Token) : ∃ line rest, after = line ++ rest ∧
    (∀ u ∈ line, u.kind ≠ .endOfLine) ∧ ∀ u ∈ rest.head?, u.kind = .endOfLine := by
  refine ⟨after.takeWhile fun t => t.kind ≠ .endOfLine,
    after.dropWhile fun t => t.kind ≠ .endOfLine, List.takeWhile_append_dropWhile.symm,
    fun u hu => by simpa using List.mem_takeWhile_imp hu, fun u hu => ?_⟩
  have hhead := List.head?_dropWhile_not (fun t : Token => decide (t.kind ≠ .endOfLine)) after
  rw [Option.mem_def.mp hu] at hhead
  simpa using hhead

end Token

namespace Lexed

open Token (texts)

/-- Behind the line break that ends some tokens of a compact program, the program is compact. -/
theorem compact_behind {front ts : List Token} (h : Lexed (front ++ ts))
    (hfront : ∀ u ∈ front.getLast?, u.kind = .endOfLine)
    (hc : compact (texts (front ++ ts)) = texts (front ++ ts)) :
    compact (texts ts) = texts ts := by
  cases hlast : front.getLast? with
  | none =>
    obtain rfl := List.getLast?_eq_none_iff.mp hlast
    exact hc
  | some e =>
    obtain ⟨front, rfl⟩ := List.getLast?_eq_some_iff.mp hlast
    have hshape := h.shape e (by simp)
    rw [hfront e hlast] at hshape
    obtain ⟨v, c, hv⟩ := (List.eq_nil_or_concat e.value).resolve_left hshape.ne_nil
    refine compact_behind_break (u := texts front ++ v) (hshape.isBreak c (by simp [hv])) ?_
    simpa [hv] using hc

/-- A line of a compact program is compact. -/
theorem compactContent_line {line after : List Token} (h : Lexed (line ++ after))
    (hline : ∀ t ∈ line, t.kind ≠ .endOfLine) (hafter : ∀ u ∈ after.head?, u.kind = .endOfLine)
    (hc : compact (texts (line ++ after)) = texts (line ++ after)) :
    compactContent (texts line) = texts line := by
  have hunbroken : (texts line).Unbroken :=
    Token.unbroken_texts (fun t ht => h.shape t (List.mem_append_left after ht)) hline
  have hbreak : ∀ c ∈ (texts after).head?, Text.isBreak c = true := by
    intro c hmem
    cases after with
    | nil => contradiction
    | cons u after =>
      have hshape := h.shape u (by simp)
      rw [hafter u rfl] at hshape
      obtain ⟨d, v, hv⟩ := List.exists_cons_of_ne_nil hshape.ne_nil
      obtain rfl : d = c := by simpa [hv] using hmem
      exact hshape.isBreak d (by simp [hv])
  rw [Token.texts_append] at hc
  exact (compact_eq_of_append hunbroken hbreak hc).1

/-- Tokens of a line behind which it goes on lead from code to code, unless a comment begins in a
name. -/
theorem balanced_line {line ts : List Token} {t : Token} (h : Lexed (line ++ t :: ts))
    (ht : t.kind ≠ .endOfLine) (hline : ∀ u ∈ line, u.kind ≠ .endOfLine)
    (hm : ∀ u ∈ line, u.Unmarked) : (texts line).Balanced := by
  induction line with
  | nil => exact Text.balanced_nil
  | cons p line ih =>
    obtain ⟨-, hline⟩ := List.forall_mem_cons.mp hline
    obtain ⟨hp, hm⟩ := List.forall_mem_cons.mp hm
    cases h with
    | cons hshape hends h =>
      refine Text.Balanced.append ?_ (ih h hline hm)
      refine (Token.balanced_or_isOpen hshape hp).resolve_right fun hopen => ?_
      cases line with
      | nil => exact ht (Token.kind_of_isOpen hends (h.shape t List.mem_cons_self) hopen)
      | cons u line =>
        exact hline u List.mem_cons_self
          (Token.kind_of_isOpen hends (h.shape u List.mem_cons_self) hopen)

/-- No two neighbours are blanks. -/
theorem isBlankOnly_next {t u : Token} {ts us : List Token} (h : Lexed ts)
    (hs : t :: u :: us <:+ ts) (ht : Text.isBlankOnly t.value = true) :
    Text.isBlankOnly u.value = false := by
  cases h.of_suffix hs with
  | cons _ hends hrest => exact Token.isBlankOnly_of_blanks hends (hrest.shape u (by simp)) ht

/-- Blanks on a line without ink are all that the line holds. -/
theorem eq_nil_of_blank_line {line more after : List Token} {t : Token}
    (h : Lexed (line ++ t :: (more ++ after))) (ht : Text.isBlankOnly t.value = true)
    (hblank : Text.isBlankOnly (texts (line ++ more)) = true) : line = [] ∧ more = [] := by
  rw [Token.texts_append, Text.isBlankOnly_append, Bool.and_eq_true] at hblank
  obtain ⟨hline, hmore⟩ := hblank
  constructor
  · by_contra hne
    obtain ⟨ps, p, rfl⟩ := (List.eq_nil_or_concat line).resolve_left hne
    rw [List.concat_eq_append] at h hline
    rw [Token.texts_append, Text.isBlankOnly_append, Bool.and_eq_true, Token.texts_cons,
      Token.texts_nil, List.append_nil] at hline
    rw [List.append_assoc] at h
    have hink := h.isBlankOnly_next (List.suffix_append ps _) hline.2
    rw [ht] at hink
    contradiction
  · by_contra hne
    obtain ⟨u, us, rfl⟩ := List.exists_cons_of_ne_nil hne
    have hink := h.isBlankOnly_next (List.suffix_append line _) ht
    rw [Token.texts_cons, Text.isBlankOnly_append, hink] at hmore
    contradiction

section

variable {line more after : List Token} {t : Token} (h : Lexed (line ++ t :: (more ++ after)))
  (hc : compact (texts (line ++ t :: (more ++ after))) = texts (line ++ t :: (more ++ after)))
  (ht : t.kind ≠ .endOfLine) (hblank : Text.isBlankOnly t.value = true)
  (hline : ∀ u ∈ line, u.kind ≠ .endOfLine) (hmore : ∀ u ∈ more, u.kind ≠ .endOfLine)
  (hink : Text.isBlankOnly (texts (line ++ more)) = false)
include h hc ht hblank hline hmore hink

/-- Among other tokens of a line, compacting does not come to code before blanks. -/
theorem behind_ne_code (hafter : ∀ u ∈ after.head?, u.kind = .endOfLine) :
    Region.behind .code (texts line) t.value ≠ .code := by
  have hall : ∀ u ∈ line ++ t :: more, u.kind ≠ .endOfLine := by
    intro u hu
    rcases List.mem_append.mp hu with hu | hu
    · exact hline u hu
    rcases List.mem_cons.mp hu with rfl | hu
    · exact ht
    · exact hmore u hu
  have htokens : line ++ t :: (more ++ after) = (line ++ t :: more) ++ after := by simp
  have hcontent : compactContent (texts (line ++ t :: more)) = texts (line ++ t :: more) := by
    rw [htokens] at h hc
    exact h.compactContent_line hall hafter hc
  have hnot : Text.isBlankOnly (texts (line ++ t :: more)) = false := by
    simpa [Text.isBlankOnly_append, hblank] using hink
  rw [compactContent_of_not hnot, Token.texts_append, Token.texts_cons] at hcontent
  obtain ⟨c, v, hv⟩ := List.exists_cons_of_ne_nil (h.shape t (by simp)).ne_nil
  rw [hv, Text.isBlankOnly_cons, Bool.and_eq_true] at hblank
  rw [hv] at hcontent ⊢
  have hnext : Region.behind .code (texts line) (c :: v) =
      Region.behind .code (texts line) (c :: (v ++ texts more)) := Region.behind_congr _ _ rfl
  rw [hnext]
  exact Region.behind_ne_code hblank.1 hcontent

/-- Among other tokens of a line, blanks stand behind a name in which a comment begins. -/
theorem exists_marked :
    ∃ name ∈ line, name.kind = .parameter ∧ (';' ∈ name.value ∨ '(' ∈ name.value) := by
  by_contra hnone
  have hm : ∀ u ∈ line, u.Unmarked := by
    intro u hu hk
    by_contra hmark
    exact hnone ⟨u, hu, hk, by tauto⟩
  have hunbroken : ∀ us ⊆ line ++ t :: (more ++ after), (∀ u ∈ us, u.kind ≠ .endOfLine) →
      (texts us).Unbroken := fun us hus => Token.unbroken_texts fun u hu => h.shape u (hus hu)
  rw [Token.texts_append] at hink
  refine compact_ne_of_blanks (hunbroken line (by simp) hline) (h.balanced_line ht hline hm) hblank
    (h.shape t (by simp)).ne_nil (hunbroken more ?_ hmore) hink (texts after) ?_
  · intro u hu
    simp [hu]
  · simpa using hc

end

end Lexed

/-- Blanks among the tokens of a program are all that their line holds exactly if compacting, on
its way through the line, comes to code before them. If it does not, a comment begins in a name
that stands before them on the line. -/
theorem tokens_blanks (source : Text) : ∃ ts, tokens source = .ok ts ∧
    ∀ before t after, ts = before ++ t :: after → t.kind = .unknown →
      Text.isBlankOnly t.value = true →
      (Token.Alone before after ↔
        Region.behind .code (Token.texts (Token.lineOf before)) t.value = .code) ∧
      (¬Token.Alone before after → ∃ name ∈ Token.lineOf before, name.kind = .parameter ∧
        (';' ∈ name.value ∨ '(' ∈ name.value)) := by
  obtain ⟨ts, stop, l, hrun, hstop, -, hlexed, htexts⟩ := tokens_ofSource source
  refine ⟨_, tokens_of_run hrun, fun before t after hts hk hblank => ?_⟩
  obtain ⟨us, rfl, rfl⟩ := Token.exists_append_stop hts <| by
    rintro rfl
    rw [hk] at hstop
    contradiction
  -- The line of the blanks is cut out: `front` ends in a line break, and `rest` begins with one.
  obtain ⟨front, hfront, hend⟩ := Token.exists_append_lineOf before
  obtain ⟨more, rest, rfl, hmore, hrest⟩ := Token.exists_lineOf_append us
  have hline := Token.kind_of_mem_lineOf before
  have hfirst := Token.lineOf_eq_nil_iff before
  generalize Token.lineOf before = line at hfront hline hfirst ⊢
  subst hfront
  have ht : t.kind ≠ .endOfLine := by
    rw [hk]
    decide
  have hlexed' : Lexed (line ++ t :: (more ++ rest)) := hlexed.of_suffix ⟨front, by simp⟩
  have hcompact : compact (Token.texts (line ++ t :: (more ++ rest))) =
      Token.texts (line ++ t :: (more ++ rest)) := by
    rw [List.append_assoc] at hlexed htexts
    refine hlexed.compact_behind hend ?_
    rw [htexts, compact_compact]
  have hnot : ¬Token.Alone (front ++ line) (more ++ rest ++ [stop]) →
      Text.isBlankOnly (Token.texts (line ++ more)) = false := by
    intro h
    by_contra hink
    rw [Bool.not_eq_false] at hink
    obtain ⟨rfl, rfl⟩ := hlexed'.eq_nil_of_blank_line hblank hink
    refine h ⟨hfirst.mp rfl, ?_⟩
    cases rest with
    | nil => exact ⟨stop, rfl, .inr hstop⟩
    | cons u rest => exact ⟨u, rfl, .inl (hrest u rfl)⟩
  refine ⟨⟨fun h => ?_, fun hcode => ?_⟩, fun h => ?_⟩
  · rw [hfirst.mpr h.first]
    rfl
  · by_contra h
    exact hlexed'.behind_ne_code hcompact ht hblank hline hmore (hnot h) hrest hcode
  · exact hlexed'.exists_marked hcompact ht hblank hline hmore (hnot h)

/-- Compacting takes the `;` in the name for the beginning of a comment and keeps the blank. -/
theorem tokens_blanks_ne : ∃ before t after, tokens "#1=<;> " = .ok (before ++ t :: after) ∧
    t.kind = .unknown ∧ Text.isBlankOnly t.value = true ∧ ¬Token.Alone before after := by
  have htokens : (tokens "#1=<;> ").toOption = some ([⟨.parameter, "#1", 1⟩, ⟨.assign, "=", 1⟩,
      ⟨.parameter, "<;>", 1⟩] ++ ⟨.unknown, " ", 1⟩ :: [⟨.endOfFile, [], 1⟩]) := by decide +kernel
  cases hts : tokens "#1=<;> " with
  | error e =>
    rw [hts] at htokens
    contradiction
  | ok ts =>
    rw [hts] at htokens
    refine ⟨_, _, _, congrArg Except.ok (Option.some.inj htokens), rfl, rfl, fun h => ?_⟩
    exact absurd (h.first _ rfl) (by decide)

end Gcode
