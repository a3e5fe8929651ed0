import Gcode.Proofs.Source.Compact
import Mathlib.Data.List.Forall2

/-!
# Texts that are the same line by line

Two texts keep their lines if their line breaks are the same in the same order, the lines without
ink are the same, and no line with ink has lost all of it. This is known from the front: a line
break may be put before both texts, and so may the beginnings of a line.

## Main definitions

* `Line.Kept` — what is left of a line.
* `KeepsLines` — each line of a text is kept in another one.

## Main statements

* `KeepsLines.cons_break`, `KeepsLines.append_ink` — what may stand before texts that keep lines.
* `keepsLines_compact` — compacting keeps the lines.
* `compact_projection` — what compacting leaves out of a text, and what it keeps.
-/

namespace Gcode

/-- What is left of the line `a` in `b`: the break that ends it, and its ink, if not all of it; a
line without ink is the same. -/
structure Line.Kept (a b : Line) : Prop where
  ending_eq : b.ending = a.ending
  ofBlank : Text.isBlankOnly a.content = true → b.content = a.content
  ofInk : Text.isBlankOnly a.content = false → Text.isBlankOnly b.content = false

/-- Each line of `s` is kept as the line of the same number in `t`. -/
def KeepsLines (s t : Text) : Prop := List.Forall₂ Line.Kept (lines s) (lines t)

namespace Line.Kept

variable {a b c : Line}

theorem refl (a : Line) : Kept a a := ⟨rfl, fun _ => rfl, id⟩

theorem trans (h : Kept a b) (k : Kept b c) : Kept a c where
  ending_eq := k.ending_eq.trans h.ending_eq
  ofBlank ha := by
    have hb := h.ofBlank ha
    rw [← hb] at ha
    rw [k.ofBlank ha, hb]
  ofInk ha := k.ofInk (h.ofInk ha)

/-- A blank line is kept as it is. -/
theorem eq_of_isBlankOnly (h : Kept a b) (ha : Text.isBlankOnly a.content = true) : b = a := by
  obtain ⟨content, ending⟩ := a
  obtain ⟨content', ending'⟩ := b
  obtain rfl : ending' = ending := h.ending_eq
  obtain rfl : content' = content := h.ofBlank ha
  rfl

/-- A line is blank exactly if it is kept as a blank one. -/
theorem isBlankOnly_iff (h : Kept a b) :
    Text.isBlankOnly b.content = true ↔ Text.isBlankOnly a.content = true := by
  constructor
  · intro hb
    by_contra ha
    rw [h.ofInk (Bool.eq_false_iff.mpr ha)] at hb
    contradiction
  · intro ha
    rw [h.ofBlank ha, ha]

/-- A line is empty exactly if it is kept as an empty one. -/
theorem content_eq_nil_iff (h : Kept a b) : a.content = [] ↔ b.content = [] := by
  constructor
  · intro ha
    rw [h.ofBlank (by rw [ha]; rfl), ha]
  · intro hb
    cases ha : Text.isBlankOnly a.content with
    | true => rw [← h.ofBlank ha, hb]
    | false =>
      have hink := h.ofInk ha
      rw [hb] at hink
      contradiction

end Line.Kept

/-! ## Where a line begins -/

/-- A text begins with a line feed exactly if its first line is empty and ends in one. -/
theorem head?_eq_feed_iff {t : Text} {line : Line} {more : List Line}
    (hl : lines t = line :: more) : t.head? = some '\n' ↔ line = ⟨[], ['\n']⟩ := by
  constructor
  · intro h
    obtain ⟨u, rfl⟩ := List.head?_eq_some_iff.mp h
    rw [lines_feed] at hl
    exact (List.cons.inj hl).1.symm
  · rintro rfl
    rw [← flatMap_lines t, hl]
    rfl

/-- The first line is empty where the text begins with a line break, or is empty. -/
theorem content_of_head? {t : Text} (h : ∀ c ∈ t.head?, Text.isBreak c = true) {line : Line}
    {more : List Line} (hl : lines t = line :: more) : line.content = [] := by
  revert hl
  fun_cases lines t with
  | case1 => exact fun hl => by rw [← (List.cons.inj hl).1]
  | case2 rest | case3 c rest _ hc => exact fun hl => by rw [← (List.cons.inj hl).1]
  | case4 c rest _ hc | case5 c rest _ hc => exact absurd (h c rfl) hc

namespace KeepsLines

variable {s t u : Text}

theorem refl (t : Text) : KeepsLines t t := List.forall₂_same.mpr fun line _ => .refl line

theorem trans (h : KeepsLines s t) (k : KeepsLines t u) : KeepsLines s u := by
  unfold KeepsLines at h k ⊢
  generalize lines s = as at h
  generalize lines t = bs at h k
  generalize lines u = cs at k
  induction h generalizing cs with
  | nil =>
    cases k
    exact .nil
  | cons hab _ ih =>
    cases k with
    | cons hbc k => exact .cons (hab.trans hbc) (ih _ k)

/-- The first lines of texts that keep lines. -/
theorem exists_cons (h : KeepsLines s t) : ∃ a as b bs, lines s = a :: as ∧ lines t = b :: bs ∧
    Line.Kept a b ∧ List.Forall₂ Line.Kept as bs := by
  unfold KeepsLines at h
  cases hs : lines s with
  | nil => exact absurd hs (lines_ne_nil s)
  | cons a as =>
    rw [hs] at h
    obtain ⟨b, bs, hab, hrest, ht⟩ := List.forall₂_cons_left_iff.mp h
    exact ⟨a, as, b, bs, rfl, ht, hab, hrest⟩

theorem head?_eq_feed_iff (h : KeepsLines s t) :
    s.head? = some '\n' ↔ t.head? = some '\n' := by
  obtain ⟨a, as, b, bs, hs, ht, hab, -⟩ := h.exists_cons
  rw [Gcode.head?_eq_feed_iff hs, Gcode.head?_eq_feed_iff ht]
  obtain ⟨content, ending⟩ := a
  obtain ⟨content', ending'⟩ := b
  have hcontent := hab.content_eq_nil_iff
  obtain rfl : ending' = ending := hab.ending_eq
  simp only [Line.mk.injEq] at hcontent ⊢
  rw [hcontent]

/-- A line break may stand before both texts. It makes a pair with what follows in both of them or
in none. -/
theorem cons_break (h : KeepsLines s t) {c : Char} (hc : Text.isBreak c = true) :
    KeepsLines (c :: s) (c :: t) := by
  have hfeed := h.head?_eq_feed_iff
  by_cases hpair : c = '\r' ∧ s.head? = some '\n'
  · obtain ⟨s, rfl⟩ := List.head?_eq_some_iff.mp hpair.2
    obtain ⟨t, rfl⟩ := List.head?_eq_some_iff.mp (hfeed.mp hpair.2)
    obtain rfl := hpair.1
    unfold KeepsLines at h ⊢
    rw [lines_feed, lines_feed] at h
    rw [lines, lines]
    exact .cons (.refl _) (List.forall₂_cons.mp h).2
  · unfold KeepsLines
    rw [lines_cons_break hc hpair, lines_cons_break hc (by rwa [← hfeed])]
    exact .cons (.refl _) h

/-- Line breaks may stand before both texts. -/
theorem append_breaks (h : KeepsLines s t) {e : Text} (he : ∀ c ∈ e, Text.isBreak c = true) :
    KeepsLines (e ++ s) (e ++ t) := by
  induction e with
  | nil => exact h
  | cons c e ih =>
    obtain ⟨hc, he⟩ := List.forall_mem_cons.mp he
    exact (ih he).cons_break hc

theorem map_ending (h : KeepsLines s t) :
    (lines t).map Line.ending = (lines s).map Line.ending := by
  unfold KeepsLines at h
  generalize lines s = as at h
  generalize lines t = bs at h
  induction h with
  | nil => rfl
  | cons hab _ ih => rw [List.map_cons, List.map_cons, hab.ending_eq, ih]

/-! ## Within a line -/

/-- Beginnings of a line may stand before the texts if they keep the line that they begin. -/
theorem append (h : KeepsLines s t) {p q : Text} (hp : p.Unbroken) (hq : q.Unbroken)
    (hline : ∀ a as, lines s = a :: as → ∀ b, Line.Kept a b →
      Line.Kept ⟨p ++ a.content, a.ending⟩ ⟨q ++ b.content, b.ending⟩) :
    KeepsLines (p ++ s) (q ++ t) := by
  obtain ⟨a, as, b, bs, hs, ht, hab, hrest⟩ := h.exists_cons
  unfold KeepsLines
  rw [lines_append hp, lines_append hq, hs, ht]
  exact .cons (hline a as hs b hab) hrest

/-- Beginnings of a line may differ if both of them have ink. -/
theorem append_ink (h : KeepsLines s t) {p q : Text} (hp : p.Unbroken) (hq : q.Unbroken)
    (hp' : Text.isBlankOnly p = false) (hq' : Text.isBlankOnly q = false) :
    KeepsLines (p ++ s) (q ++ t) := by
  refine h.append hp hq fun a as _ b hab => ⟨hab.ending_eq, fun ha => ?_, fun _ => ?_⟩
  · rw [Text.isBlankOnly_append, hp'] at ha
    contradiction
  · rw [Text.isBlankOnly_append, hq', Bool.false_and]

/-- A line may stand before the line breaks of two texts if it is kept. -/
theorem append_line (h : KeepsLines s t) (hs : ∀ c ∈ s.head?, Text.isBreak c = true)
    {p q : Text} (hp : p.Unbroken) (hq : q.Unbroken)
    (hblank : Text.isBlankOnly p = true → q = p)
    (hink : Text.isBlankOnly p = false → Text.isBlankOnly q = false) :
    KeepsLines (p ++ s) (q ++ t) := by
  refine h.append hp hq fun a as hl b hab => ?_
  have ha := content_of_head? hs hl
  have hb := hab.content_eq_nil_iff.mp ha
  rw [ha, hb, List.append_nil, List.append_nil]
  exact ⟨hab.ending_eq, hblank, hink⟩

/-- Blanks may be put before a line that begins with ink. -/
theorem append_blanks {p : Text} (h : KeepsLines (p ++ s) t) (hp : p.Unbroken)
    (hp' : Text.isBlankOnly p = false) {g : Text} (hg : Text.isBlankOnly g = true) :
    KeepsLines (p ++ s) (g ++ t) := by
  refine h.append (p := []) Text.unbroken_nil (Text.unbroken_of_isBlankOnly hg)
    fun a as hl b hab => ?_
  obtain ⟨a', as', hs⟩ := List.exists_cons_of_ne_nil (lines_ne_nil s)
  have ha : Text.isBlankOnly a.content = false := by
    rw [lines_append hp, hs] at hl
    rw [← (List.cons.inj hl).1, Text.isBlankOnly_append, hp', Bool.false_and]
  refine ⟨hab.ending_eq, fun ha' => ?_, fun _ => ?_⟩
  · rw [List.nil_append, ha] at ha'
    contradiction
  · rw [Text.isBlankOnly_append, hab.ofInk ha, Bool.and_false]

end KeepsLines

/-- Compacting keeps the lines. -/
theorem keepsLines_compact (t : Text) : KeepsLines t (compact t) := by
  have hline : ∀ {u : Text}, u.Unbroken → ∀ {s t : Text}, KeepsLines s t →
      (∀ c ∈ s.head?, Text.isBreak c = true) → KeepsLines (u ++ s) (compactContent u ++ t) := by
    intro u hu s t h hs
    refine h.append_line hs hu (unbroken_compactContent hu) (fun hb => if_pos hb) fun hb => ?_
    rwa [isBlankOnly_eq_of_ink_eq (thinned_compactContent u).ink_eq]
  induction t using Text.line_induction with
  | last u hu =>
    have key := hline hu (.refl []) (by simp)
    rwa [List.append_nil, List.append_nil, ← compact_of_unbroken hu] at key
  | more u c r hu hc ih =>
    rw [compact_append_break hu hc]
    exact hline hu (ih.cons_break hc) (by simpa using hc)

/-- Compacting a compact program changes nothing. It leaves out spaces and tabs only and keeps
every line break; a line is blank exactly if it was blank, and then it is the same. -/
theorem compact_projection (t : Text) :
    compact (compact t) = compact t ∧ Text.Thinned t (compact t) ∧
      (lines (compact t)).map Line.ending = (lines t).map Line.ending ∧
      List.Forall₂ (fun a b : Line =>
        (Text.isBlankOnly b.content = true ↔ Text.isBlankOnly a.content = true) ∧
          (Text.isBlankOnly a.content = true → b = a)) (lines t) (lines (compact t)) := by
  have hkept := keepsLines_compact t
  refine ⟨compact_compact t, thinned_compact t, hkept.map_ending, ?_⟩
  exact List.Forall₂.imp (fun a b hab => ⟨hab.isBlankOnly_iff, hab.eq_of_isBlankOnly⟩) hkept

end Gcode
