import Gcode.Proofs.Text.Ink
import Gcode.Source.Compact

/-!
# What compacting does to a text

Compacting works line by line and keeps every line break in its place, so it is known once it is
known for a text without breaks. It removes nothing but blanks, what is compact stays as it is, and
the case of letters makes no difference.

## Main definitions

* `compactContent` — what remains of the text between two line breaks.
* `Text.Balanced` — a text within a line that leaves no comment open.

## Main statements

* `compact_append_break` — compacting a line and what lies behind its break.
* `thinned_compact` — compacting leaves out spaces and tabs only.
* `compact_compact` — a compact text is kept.
* `compact_folded` — compacting commutes with folding.
-/

namespace Gcode

/-- The text holds no line break. -/
def Text.Unbroken (t : Text) : Prop := ∀ c ∈ t, Text.isBreak c = false

namespace Text

@[simp] theorem unbroken_nil : Unbroken [] := by simp [Unbroken]

@[simp] theorem unbroken_cons {c : Char} {t : Text} :
    Unbroken (c :: t) ↔ isBreak c = false ∧ Unbroken t := by simp [Unbroken]

@[simp] theorem unbroken_append {s t : Text} : Unbroken (s ++ t) ↔ Unbroken s ∧ Unbroken t := by
  simp [Unbroken, or_imp, forall_and]

theorem unbroken_of_isBlankOnly {t : Text} (h : isBlankOnly t = true) : Unbroken t := by
  intro c hc
  have hb : isBlank c = true := List.all_eq_true.mp h c hc
  simp only [isBlank, Bool.or_eq_true, decide_eq_true_eq] at hb
  rcases hb with rfl | rfl <;> rfl

theorem unbroken_of_folded_eq {s t : Text} (h : folded s = folded t) (hs : Unbroken s) :
    Unbroken t := by
  have key : ∀ u : Text, Unbroken (folded u) ↔ Unbroken u := by
    intro u
    simp [Unbroken, folded]
  rwa [← key t, ← h, key s]

/-- Only ink breaks a line. -/
theorem unbroken_of_ink_subset {s t : Text} (h : ink s ⊆ ink t) (ht : Unbroken t) :
    Unbroken s := by
  intro c hc
  cases hb : isBlank c with
  | true =>
    cases hk : isBreak c with
    | false => rfl
    | true =>
      rw [not_isBlank_of_isBreak hk] at hb
      contradiction
  | false =>
    have hink : c ∈ ink s := List.mem_filter.mpr ⟨hc, by simp [hb]⟩
    exact ht c (List.mem_filter.mp (h hink)).1

/-- A text is a last line, or a line, a break and what lies behind. -/
theorem line_induction {P : Text → Prop} (last : ∀ u, Unbroken u → P u)
    (more : ∀ u c r, Unbroken u → isBreak c = true → P r → P (u ++ c :: r)) (t : Text) : P t := by
  suffices h : ∀ u, Unbroken u → P (u ++ t) from h [] unbroken_nil
  induction t with
  | nil =>
    intro u hu
    rw [List.append_nil]
    exact last u hu
  | cons c t ih =>
    intro u hu
    cases hc : isBreak c with
    | true => exact more u c t hu hc (ih [] unbroken_nil)
    | false =>
      have hsnoc : u ++ c :: t = (u ++ [c]) ++ t := by simp
      rw [hsnoc]
      exact ih (u ++ [c]) (by simp [hu, hc])

end Text

/-! ## Lines -/

theorem lines_ne_nil (t : Text) : lines t ≠ [] := by
  fun_cases lines t <;> simp

/-- Text without breaks goes to the front of the first line. -/
theorem lines_append {u : Text} (hu : u.Unbroken) (t : Text) :
    lines (u ++ t) = (lines t).modifyHead fun line => ⟨u ++ line.content, line.ending⟩ := by
  induction u with
  | nil => rw [List.nil_append]; cases lines t <;> rfl
  | cons c u ih =>
    obtain ⟨hc, hu⟩ := Text.unbroken_cons.mp hu
    have hr : c ≠ '\r' := by rintro rfl; simp [Text.isBreak] at hc
    have hne := lines_ne_nil t
    rw [List.cons_append, lines, ih hu, if_neg (by simp [hc])]
    · cases hl : lines t with
      | nil => exact absurd hl hne
      | cons line more => rfl
    · intro rest h
      exact absurd h.symm (by simp [hr.symm])

/-- A character that ends a line, and no pair with the one behind it, ends an empty line. -/
theorem lines_cons_break {c : Char} (hc : Text.isBreak c = true) {t : Text}
    (h : ¬(c = '\r' ∧ t.head? = some '\n')) : lines (c :: t) = ⟨[], [c]⟩ :: lines t := by
  rw [lines, if_pos hc]
  rintro rest hr rfl
  exact h ⟨hr, rfl⟩

theorem lines_feed (t : Text) : lines ('\n' :: t) = ⟨[], ['\n']⟩ :: lines t :=
  lines_cons_break rfl (by simp)

/-- What remains of the text between two line breaks. -/
def compactContent (u : Text) : Text :=
  if Text.isBlankOnly u then u else Region.compact .code u

theorem Line.text_compact (line : Line) :
    line.compact.text = compactContent line.content ++ line.ending := by
  unfold Line.compact compactContent
  split <;> rfl

theorem compact_of_unbroken {u : Text} (hu : u.Unbroken) : compact u = compactContent u := by
  have h := lines_append hu []
  rw [List.append_nil] at h
  simp [compact, h, lines, Line.text_compact]

/-- A line break stays where it is, and the lines around it are compacted apart. -/
theorem compact_append_break {u : Text} (hu : u.Unbroken) {c : Char} (hc : Text.isBreak c = true)
    (r : Text) : compact (u ++ c :: r) = compactContent u ++ c :: compact r := by
  by_cases pair : c = '\r' ∧ r.head? = some '\n'
  · obtain ⟨rfl, hr⟩ := pair
    obtain ⟨r, rfl⟩ := List.head?_eq_some_iff.mp hr
    have both : lines ('\r' :: '\n' :: r) = ⟨[], ['\r', '\n']⟩ :: lines r := by rw [lines]
    simp [compact, lines_append hu, both, lines_feed, Line.text_compact, compactContent]
  · simp [compact, lines_append hu, lines_cons_break hc pair, Line.text_compact]

/-- Several breaks in a row stay where they are. -/
theorem compact_append_breaks {u : Text} (hu : u.Unbroken) {e : Text} (he : e ≠ [])
    (hb : ∀ c ∈ e, Text.isBreak c = true) (r : Text) :
    compact (u ++ (e ++ r)) = compactContent u ++ (e ++ compact r) := by
  induction e generalizing u with
  | nil => exact absurd rfl he
  | cons c e ih =>
    have hc := hb c (by simp)
    rw [List.cons_append, compact_append_break hu hc, List.cons_append]
    cases e with
    | nil => rfl
    | cons d e =>
      have := ih Text.unbroken_nil (by simp) fun x hx => hb x (by simp [hx])
      rw [List.nil_append] at this
      rw [this]
      rfl

/-! ## Within a line -/

namespace Region

theorem compact_cons (region : Region) (c : Char) (rest : Text) :
    compact region (c :: rest) =
      if region = .code && Text.isBlank c then compact (region.next c rest) rest
      else c :: compact (region.next c rest) rest := rfl

/-- Only blanks are removed. -/
theorem thinned_compact (region : Region) (t : Text) : Text.Thinned t (compact region t) := by
  induction t generalizing region with
  | nil => exact .nil
  | cons c t ih =>
    rw [compact_cons]
    split
    case isTrue h =>
      rw [Bool.and_eq_true] at h
      exact .drop h.2 (ih _)
    case isFalse => exact .keep c (ih _)

theorem length_compact_le (region : Region) (t : Text) : (compact region t).length ≤ t.length :=
  (thinned_compact region t).sublist.length_le

theorem compact_ne_cons (region : Region) (c : Char) (t : Text) : compact region t ≠ c :: t := by
  intro h
  have hle := length_compact_le region t
  rw [h, List.length_cons] at hle
  omega

/-- Blanks in front of code are removed. -/
theorem compact_append_of_isBlankOnly {g : Text} (h : Text.isBlankOnly g = true) (t : Text) :
    compact .code (g ++ t) = compact .code t := by
  induction g with
  | nil => rfl
  | cons c g ih =>
    rw [Text.isBlankOnly_cons, Bool.and_eq_true] at h
    have hnext : next .code c (g ++ t) = .code := by
      have hc := h.1
      simp only [Text.isBlank, Bool.or_eq_true, decide_eq_true_eq] at hc
      rcases hc with rfl | rfl <;> rfl
    rw [List.cons_append, compact_cons, if_pos (by simp [h.1]), hnext, ih h.2]

/-- A closing parenthesis right behind an opening one is there still when the text is compact. -/
theorem next_compact (region : Region) (c : Char) (rest : Text) :
    region.next c (compact (region.next c rest) rest) = region.next c rest := by
  cases region with
  | parenthesized | remainder => rfl
  | code =>
    by_cases hs : c = ';'
    · simp [next, hs]
    by_cases hp : c = '('
    · subst hp
      cases rest with
      | nil => rfl
      | cons d rest =>
        by_cases hd : d = ')'
        · subst hd
          rfl
        · simp [next, hd, compact_cons]
    · simp [next, hs, hp]

theorem compact_compact (region : Region) (t : Text) :
    compact region (compact region t) = compact region t := by
  induction t generalizing region with
  | nil => rfl
  | cons c t ih =>
    rw [compact_cons]
    split
    case isTrue h =>
      have hregion : region = .code := by simp_all
      subst hregion
      have hnext : next .code c t = .code := by
        have hc : Text.isBlank c = true := by simp_all
        simp only [Text.isBlank, Bool.or_eq_true, decide_eq_true_eq] at hc
        rcases hc with rfl | rfl <;> rfl
      rw [hnext, ih]
    case isFalse h => rw [compact_cons, if_neg h, next_compact, ih]

end Region

/-- From code, the text leads back to code: what follows it is compacted on its own. -/
def Text.Balanced (t : Text) : Prop :=
  ∀ rest, Region.compact .code (t ++ rest) = Region.compact .code t ++ Region.compact .code rest

namespace Text

theorem balanced_nil : Balanced [] := fun _ => rfl

theorem Balanced.append {s t : Text} (hs : s.Balanced) (ht : t.Balanced) :
    (s ++ t).Balanced := by
  intro rest
  rw [List.append_assoc, hs, ht, hs, List.append_assoc]

/-- A text in which no comment begins is balanced. -/
theorem balanced_of_forall {t : Text} (h : ∀ c ∈ t, c ≠ ';' ∧ c ≠ '(') : t.Balanced := by
  intro rest
  induction t with
  | nil => rfl
  | cons c t ih =>
    obtain ⟨hc, ht⟩ := List.forall_mem_cons.mp h
    have hnext : ∀ r, Region.next .code c r = .code := by
      intro r
      simp [Region.next, hc]
    rw [List.cons_append, Region.compact_cons, Region.compact_cons, hnext, hnext, ih ht]
    split <;> rfl

theorem balanced_of_isBlankOnly {t : Text} (h : isBlankOnly t = true) : t.Balanced := by
  apply balanced_of_forall
  intro c hc
  have hb : isBlank c = true := List.all_eq_true.mp h c hc
  simp only [isBlank, Bool.or_eq_true, decide_eq_true_eq] at hb
  rcases hb with rfl | rfl <;> decide

end Text

namespace Region

/-- The text of a comment is kept. -/
theorem compact_parenthesized {v : Text} (h : ')' ∉ v) (rest : Text) :
    compact .parenthesized (v ++ rest) = v ++ compact .parenthesized rest := by
  induction v with
  | nil => rfl
  | cons c v ih =>
    rw [List.mem_cons, not_or] at h
    have hnext : ∀ r, next .parenthesized c r = .parenthesized := by
      intro r
      simp [next, Ne.symm h.1]
    rw [List.cons_append, compact_cons, hnext, ih h.2]
    rfl

theorem compact_comment {v : Text} (h : ')' ∉ v) (rest : Text) :
    compact .code ('(' :: v ++ ')' :: rest) = '(' :: v ++ ')' :: compact .code rest := by
  cases v with
  | nil => rfl
  | cons c v =>
    have hc : c ≠ ')' := by
      rintro rfl
      exact h List.mem_cons_self
    have hnext : next .code '(' (c :: v ++ ')' :: rest) = .parenthesized := by simp [next, hc]
    rw [List.cons_append, compact_cons, hnext, compact_parenthesized h]
    rfl

/-- Without blanks, there is nothing to remove. -/
theorem compact_of_forall {t : Text} (h : ∀ c ∈ t, Text.isBlank c = false) (region : Region) :
    compact region t = t := by
  induction t generalizing region with
  | nil => rfl
  | cons c t ih =>
    obtain ⟨hc, ht⟩ := List.forall_mem_cons.mp h
    rw [compact_cons, if_neg (by simp [hc]), ih ht]

end Region

theorem Text.balanced_comment {v : Text} (h : ')' ∉ v) : Text.Balanced ('(' :: v ++ [')']) := by
  intro rest
  have hrest : '(' :: v ++ [')'] ++ rest = '(' :: v ++ ')' :: rest := by simp
  rw [hrest, Region.compact_comment h, Region.compact_comment h]
  simp [Region.compact]

theorem compactContent_of_not {u : Text} (h : Text.isBlankOnly u = false) :
    compactContent u = Region.compact .code u := by
  rw [compactContent, h]
  rfl

theorem compactContent_of_forall {u : Text} (h : ∀ c ∈ u, Text.isBlank c = false) :
    compactContent u = u := by
  unfold compactContent
  split
  · rfl
  · exact Region.compact_of_forall h .code

theorem thinned_compactContent (u : Text) : Text.Thinned u (compactContent u) := by
  unfold compactContent
  split
  · exact .refl u
  · exact Region.thinned_compact .code u

theorem isBlankOnly_eq_of_ink_eq {s t : Text} (h : Text.ink s = Text.ink t) :
    Text.isBlankOnly s = Text.isBlankOnly t := by
  rw [Bool.eq_iff_iff, ← Text.ink_eq_nil_iff, ← Text.ink_eq_nil_iff, h]

theorem compactContent_compactContent (u : Text) :
    compactContent (compactContent u) = compactContent u := by
  have hblank := isBlankOnly_eq_of_ink_eq (thinned_compactContent u).ink_eq
  by_cases h : Text.isBlankOnly u = true
  · have hu : compactContent u = u := if_pos h
    rw [hu, hu]
  · have hu : compactContent u = Region.compact .code u := if_neg h
    rw [compactContent, if_neg (by rwa [hblank]), hu, Region.compact_compact]

theorem unbroken_compactContent {u : Text} (hu : u.Unbroken) : (compactContent u).Unbroken :=
  fun c hc => hu c ((thinned_compactContent u).sublist.subset hc)

/-! ## Whole programs -/

/-- What stands behind a line is compacted apart from it. -/
theorem compact_append {u : Text} (hu : u.Unbroken) {r : Text}
    (hr : ∀ c ∈ r.head?, Text.isBreak c = true) :
    compact (u ++ r) = compactContent u ++ compact r := by
  cases r with
  | nil =>
    have hnil : compact [] = [] := rfl
    rw [hnil, List.append_nil, List.append_nil, compact_of_unbroken hu]
  | cons c r =>
    have hc := hr c rfl
    have hbare := compact_append_break Text.unbroken_nil hc r
    rw [List.nil_append] at hbare
    rw [compact_append_break hu hc, hbare]
    rfl

/-- Compacting leaves out spaces and tabs only. -/
theorem thinned_compact (t : Text) : Text.Thinned t (compact t) := by
  induction t using Text.line_induction with
  | last u hu =>
    rw [compact_of_unbroken hu]
    exact thinned_compactContent u
  | more u c r hu hc ih =>
    rw [compact_append_break hu hc]
    exact (thinned_compactContent u).append (.keep c ih)

/-- Compacting keeps the ink. -/
theorem ink_compact (t : Text) : Text.ink (compact t) = Text.ink t := (thinned_compact t).ink_eq

theorem length_compact_le (t : Text) : (compact t).length ≤ t.length :=
  (thinned_compact t).sublist.length_le

theorem compact_breaks {e : Text} (he : e ≠ []) (hb : ∀ c ∈ e, Text.isBreak c = true) (r : Text) :
    compact (e ++ r) = e ++ compact r := by
  have key := compact_append_breaks Text.unbroken_nil he hb r
  rwa [List.nil_append] at key

/-- If a program is compact, then so are a line of it and what stands behind the line. -/
theorem compact_eq_of_append {u : Text} (hu : u.Unbroken) {r : Text}
    (hr : ∀ c ∈ r.head?, Text.isBreak c = true) (h : compact (u ++ r) = u ++ r) :
    compactContent u = u ∧ compact r = r := by
  have hle := (thinned_compactContent u).sublist.length_le
  have hle' := length_compact_le r
  rw [compact_append hu hr] at h
  have hlength := congrArg List.length h
  simp only [List.length_append] at hlength
  exact List.append_inj h (by omega)

/-- If a program is compact, then so is what stands behind a line break in it. -/
theorem compact_behind_break {u : Text} {c : Char} (hc : Text.isBreak c = true) {r : Text}
    (h : compact (u ++ c :: r) = u ++ c :: r) : compact r = r := by
  induction u using Text.line_induction with
  | last u hu =>
    obtain ⟨-, hbreak⟩ := compact_eq_of_append hu (by simp [hc]) h
    have key := compact_breaks (e := [c]) (by simp) (by simp [hc]) r
    exact List.cons.inj (key.symm.trans hbreak) |>.2
  | more u d v hu hd ih =>
    rw [List.append_assoc, List.cons_append] at h
    obtain ⟨-, hbreak⟩ := compact_eq_of_append hu (by simp [hd]) h
    have key := compact_breaks (e := [d]) (by simp) (by simp [hd]) (v ++ c :: r)
    exact ih (List.cons.inj (key.symm.trans hbreak)).2

/-- The beginning of a line that is not blank is compacted if it is balanced, and what follows it
does not get longer. -/
theorem compact_append_balanced {p x : Text} (hp : p.Unbroken) (hb : p.Balanced)
    (hx : x.Unbroken) (h : Text.isBlankOnly (p ++ x) = false) (r : Text) :
    ∃ r', compact (p ++ (x ++ r)) = Region.compact .code p ++ r' ∧
      r'.length ≤ (x ++ r).length := by
  have content : ∀ u, compactContent (p ++ (x ++ u)) =
      Region.compact .code p ++ Region.compact .code (x ++ u) := by
    intro u
    have hblank : Text.isBlankOnly ((p ++ x) ++ u) = false := by
      rw [Text.isBlankOnly_append, h, Bool.false_and]
    rw [← List.append_assoc, compactContent_of_not hblank, List.append_assoc, hb]
  induction r using Text.line_induction with
  | last u hu =>
    refine ⟨Region.compact .code (x ++ u), ?_, Region.length_compact_le .code _⟩
    rw [compact_of_unbroken (by simp [hp, hx, hu]), content]
  | more u c r hu hc _ =>
    have hline : p ++ (x ++ (u ++ c :: r)) = (p ++ (x ++ u)) ++ c :: r := by simp
    refine ⟨Region.compact .code (x ++ u) ++ c :: compact r, ?_, ?_⟩
    · rw [hline, compact_append_break (by simp [hp, hx, hu]) hc, content, List.append_assoc]
    · have hxu := Region.length_compact_le .code (x ++ u)
      have hr := length_compact_le r
      simp only [List.length_append, List.length_cons] at hxu ⊢
      omega

/-- A compact text is kept. -/
theorem compact_compact (t : Text) : compact (compact t) = compact t := by
  induction t using Text.line_induction with
  | last u hu =>
    rw [compact_of_unbroken hu, compact_of_unbroken (unbroken_compactContent hu),
      compactContent_compactContent]
  | more u c r hu hc ih =>
    rw [compact_append_break hu hc, compact_append_break (unbroken_compactContent hu) hc,
      compactContent_compactContent, ih]

/-- Blanks that end a balanced beginning of a line are removed, unless the line is blank. -/
theorem compact_ne_of_blanks {p v x : Text} (hp : p.Unbroken) (hb : p.Balanced)
    (hv : Text.isBlankOnly v = true) (hne : v ≠ []) (hx : x.Unbroken)
    (h : Text.isBlankOnly (p ++ x) = false) (r : Text) :
    compact (p ++ (v ++ (x ++ r))) ≠ p ++ (v ++ (x ++ r)) := by
  intro hsame
  have hpv : (p ++ v).Unbroken := by
    rw [Text.unbroken_append]
    exact ⟨hp, Text.unbroken_of_isBlankOnly hv⟩
  have hpvx : Text.isBlankOnly ((p ++ v) ++ x) = false := by
    rw [Text.isBlankOnly_append] at h
    rw [Text.isBlankOnly_append, Text.isBlankOnly_append, hv, Bool.and_true, h]
  obtain ⟨r', hr', hle⟩ := compact_append_balanced hpv
    (hb.append (Text.balanced_of_isBlankOnly hv)) hx hpvx r
  have hnone : Region.compact .code v = [] := by
    have key := Region.compact_append_of_isBlankOnly hv []
    rwa [List.append_nil] at key
  have hlep := Region.length_compact_le .code p
  have hpos := List.length_pos_iff.mpr hne
  rw [← List.append_assoc, hr', hb, hnone] at hsame
  have hlength := congrArg List.length hsame
  simp only [List.length_append, List.length_nil] at hlength hle
  omega

/-! ## Folded programs -/

namespace Region

theorem next_folded (region : Region) (c : Char) (rest : Text) :
    region.next c.toLower (Text.folded rest) = region.next c rest := by
  have semicolon : ∀ c : Char, c.toLower = ';' ↔ c = ';' := Text.toLower_eq_iff (by decide)
  have opening : ∀ c : Char, c.toLower = '(' ↔ c = '(' := Text.toLower_eq_iff (by decide)
  have close : ∀ c : Char, c.toLower = ')' ↔ c = ')' := Text.toLower_eq_iff (by decide)
  cases region with
  | code => simp [next, semicolon, opening, @Text.head?_folded_eq_some ')' (by decide)]
  | parenthesized => simp [next, close]
  | remainder => rfl

theorem compact_folded (region : Region) (t : Text) :
    compact region (Text.folded t) = Text.folded (compact region t) := by
  induction t generalizing region with
  | nil => rfl
  | cons c t ih =>
    rw [Text.folded_cons, compact_cons, compact_cons, next_folded, ih, Text.isBlank_toLower]
    split <;> rfl

end Region

theorem compactContent_folded (u : Text) :
    compactContent (Text.folded u) = Text.folded (compactContent u) := by
  rw [compactContent, compactContent, Text.isBlankOnly_folded]
  split
  · rfl
  · exact Region.compact_folded .code u

theorem Text.Unbroken.folded {u : Text} (hu : u.Unbroken) : (Text.folded u).Unbroken :=
  unbroken_of_folded_eq (folded_folded u).symm hu

/-- Compacting commutes with folding. -/
theorem compact_folded (t : Text) : compact (Text.folded t) = Text.folded (compact t) := by
  induction t using Text.line_induction with
  | last u hu => rw [compact_of_unbroken hu.folded, compact_of_unbroken hu, compactContent_folded]
  | more u c r hu hc ih =>
    have hc' : Text.isBreak c.toLower = true := by rw [Text.isBreak_toLower, hc]
    rw [Text.folded_append, Text.folded_cons, compact_append_break hu.folded hc', ih,
      compact_append_break hu hc, compactContent_folded, Text.folded_append, Text.folded_cons]

/-- Texts that agree up to case are compacted to texts that do. -/
theorem folded_compact_eq {s t : Text} (h : Text.folded s = Text.folded t) :
    Text.folded (compact s) = Text.folded (compact t) := by
  rw [← compact_folded, h, compact_folded]

end Gcode
