import Gcode.Proofs.Text.Folded
import Mathlib.Data.List.Induction

/-!
# The ink of a text

What a text says is its characters other than spaces and tabs, its ink. Layout puts blanks in and
takes blanks out; trimming takes out other white space as well, so it may take ink.

## Main definitions

* `Text.ink` — a text without its spaces and tabs.
* `Text.Thinned` — a text that lacks some of the spaces and tabs of another.
* `Text.solid` — a text without its white space, which no trimming takes anything from.
* `Text.Sturdy`, `Text.Firm` — a text that no trimming at its end, or at both ends, takes ink from.
* `Text.Begun` — a text that begins with ink.
* `Text.Keeps` — a text that may lack some ink of another, with the condition for lacking none.

## Main statements

* `ink_trimRight_eq_iff`, `ink_trim_eq_iff` — trimming keeps the ink of exactly these texts.
-/

namespace Gcode.Text

/-- The text without its spaces and tabs. -/
def ink (t : Text) : Text := t.filter fun c => !isBlank c

@[simp] theorem ink_nil : ink [] = [] := rfl

@[simp] theorem ink_append (s t : Text) : ink (s ++ t) = ink s ++ ink t := List.filter_append ..

theorem ink_cons (c : Char) (t : Text) :
    ink (c :: t) = if isBlank c then ink t else c :: ink t := by
  cases h : isBlank c <;> simp [ink, h]

theorem isBlankOnly_append (s t : Text) :
    isBlankOnly (s ++ t) = (isBlankOnly s && isBlankOnly t) := List.all_append

theorem ink_eq_nil_iff {t : Text} : ink t = [] ↔ isBlankOnly t = true := by
  simp [ink, isBlankOnly]

@[simp] theorem ink_space : ink " " = [] := rfl

@[simp] theorem ink_replicate_space (n : Nat) : ink (List.replicate n ' ') = [] := by
  simp [ink, isBlank]

theorem ink_folded (t : Text) : ink (folded t) = folded (ink t) := by
  induction t with
  | nil => rfl
  | cons c t ih => cases h : isBlank c <;> simp [ink_cons, h, ih]

/-- Texts with the same blanks in the same places and the same ink are the same. -/
theorem eq_of_folded_eq_of_ink_eq {s t : Text} (hf : folded s = folded t) (hi : ink s = ink t) :
    s = t := by
  induction s generalizing t with
  | nil => exact (folded_eq_nil.mp (hf.symm.trans folded_nil)).symm
  | cons c s ih =>
    cases t with
    | nil => simp at hf
    | cons d t =>
      obtain ⟨hc, hf⟩ := List.cons.inj hf
      have hb : isBlank c = isBlank d := by rw [← isBlank_toLower c, hc, isBlank_toLower]
      cases h : isBlank d with
      | true =>
        rw [h] at hb
        have hcd : c = d := by
          have blank : ∀ {e : Char}, isBlank e = true → e.toLower = e := by
            intro e he
            simp only [isBlank, Bool.or_eq_true, decide_eq_true_eq] at he
            rcases he with rfl | rfl <;> rfl
          rw [← blank hb, hc, blank h]
        simp only [ink_cons, hb, h, if_true] at hi
        rw [hcd, ih hf hi]
      | false =>
        rw [h] at hb
        simp only [ink_cons, hb, h, Bool.false_eq_true, if_false] at hi
        obtain ⟨hcd, hi⟩ := List.cons.inj hi
        rw [hcd, ih hf hi]

/-! ## Leaving out blanks -/

/-- The second text is what remains of the first one when some of its spaces and tabs are left
out. -/
inductive Thinned : Text → Text → Prop
  | nil : Thinned [] []
  | keep {s t : Text} (c : Char) : Thinned s t → Thinned (c :: s) (c :: t)
  | drop {s t : Text} {c : Char} : isBlank c = true → Thinned s t → Thinned (c :: s) t

namespace Thinned

theorem refl (t : Text) : Thinned t t := by
  induction t with
  | nil => exact .nil
  | cons c t ih => exact .keep c ih

theorem append {s t u v : Text} (h : Thinned s t) (k : Thinned u v) :
    Thinned (s ++ u) (t ++ v) := by
  induction h with
  | nil => exact k
  | keep c _ ih => exact .keep c ih
  | drop hc _ ih => exact .drop hc ih

theorem sublist {s t : Text} (h : Thinned s t) : t.Sublist s := by
  induction h with
  | nil => exact .slnil
  | keep c _ ih => exact ih.cons_cons c
  | drop _ _ ih => exact ih.cons _

/-- Where the second text is cut, the first one can be cut, too. -/
theorem exists_append {s t u : Text} (h : Thinned s (t ++ u)) :
    ∃ x y, s = x ++ y ∧ Thinned x t ∧ Thinned y u := by
  generalize hv : t ++ u = v at h
  induction h generalizing t with
  | nil =>
    obtain ⟨rfl, rfl⟩ := List.append_eq_nil_iff.mp hv
    exact ⟨[], [], rfl, .nil, .nil⟩
  | keep c h ih =>
    cases t with
    | nil =>
      obtain rfl : u = c :: _ := hv
      exact ⟨[], _, rfl, .nil, .keep c h⟩
    | cons d t =>
      obtain ⟨rfl, htail⟩ := List.cons.inj hv
      obtain ⟨x, y, rfl, hx, hy⟩ := ih htail
      exact ⟨d :: x, y, rfl, .keep d hx, hy⟩
  | @drop _ _ c hc _ ih =>
    obtain ⟨x, y, rfl, hx, hy⟩ := ih hv
    exact ⟨c :: x, y, rfl, .drop hc hx, hy⟩

/-- Ink at the beginning stays there. -/
theorem head?_eq {s t : Text} (h : Thinned s t) {c : Char} (hs : s.head? = some c)
    (hc : isBlank c = false) : t.head? = some c := by
  cases h with
  | nil => exact hs
  | keep d _ => exact hs
  | drop hd _ =>
    obtain rfl := Option.some.inj hs
    rw [hd] at hc
    cases hc

/-- No ink is left out. -/
theorem ink_eq {s t : Text} (h : Thinned s t) : ink t = ink s := by
  induction h with
  | nil => rfl
  | keep c _ ih => rw [ink_cons, ih, ← ink_cons]
  | drop hc _ ih => rw [ink_cons, if_pos hc, ih]

end Thinned

/-! ## Trimming -/

theorem trimRight_isPrefix (t : Text) : trimRight t <+: t := by
  induction t with
  | nil => exact List.prefix_rfl
  | cons c t ih =>
    unfold trimRight
    split
    · split
      · exact List.nil_prefix
      · exact ⟨t, rfl⟩
    · exact (List.prefix_cons_inj c).mpr ih

/-- A text that ends in no white space is kept by trimming its end. -/
theorem trimRight_append_singleton {t : Text} {c : Char} (h : isSpace c = false) :
    trimRight (t ++ [c]) = t ++ [c] := by
  induction t with
  | nil => simp [trimRight, h]
  | cons d t ih =>
    rw [List.cons_append, trimRight, ih]
    split
    · simp_all
    · rfl

theorem trimRight_append_space {t : Text} {c : Char} (h : isSpace c = true) :
    trimRight (t ++ [c]) = trimRight t := by
  induction t with
  | nil => simp [trimRight, h]
  | cons d t ih => rw [List.cons_append, trimRight, ih, trimRight]

/-- Blanks at the end are trimmed away. -/
theorem trimRight_append_of_isBlankOnly (t : Text) {u : Text} (h : isBlankOnly u = true) :
    trimRight (t ++ u) = trimRight t := by
  induction u using List.reverseRecOn with
  | nil => rw [List.append_nil]
  | append_singleton u c ih =>
    simp only [isBlankOnly, List.all_append, Bool.and_eq_true, List.all_cons] at h
    rw [← List.append_assoc, trimRight_append_space (isSpace_of_isBlank h.2.1), ih h.1]

/-- The text without its white space. -/
def solid (t : Text) : Text := t.filter fun c => !isSpace c

@[simp] theorem solid_append (s t : Text) : solid (s ++ t) = solid s ++ solid t :=
  List.filter_append ..

theorem solid_ink (t : Text) : solid (ink t) = solid t := by
  unfold solid ink
  rw [List.filter_filter]
  refine List.filter_congr fun c _ => ?_
  cases hb : isBlank c with
  | false => simp
  | true => simp [isSpace_of_isBlank hb]

theorem solid_trimRight (t : Text) : solid (trimRight t) = solid t := by
  induction t using List.reverseRecOn with
  | nil => rfl
  | append_singleton t c ih =>
    cases hs : isSpace c with
    | true =>
      rw [trimRight_append_space hs, ih, solid_append]
      simp [solid, hs]
    | false => rw [trimRight_append_singleton hs]

theorem solid_trimLeft (t : Text) : solid (trimLeft t) = solid t := by
  induction t with
  | nil => rfl
  | cons c t ih =>
    cases hs : isSpace c with
    | true =>
      have htrim : trimLeft (c :: t) = trimLeft t := by simp [trimLeft, hs]
      rw [htrim, ih]
      simp [solid, hs]
    | false => rw [trimLeft, List.dropWhile_cons_of_neg (by simp [hs])]

theorem solid_trim (t : Text) : solid (trim t) = solid t := by
  rw [trim, solid_trimRight, solid_trimLeft]

theorem solid_folded (t : Text) : solid (folded t) = folded (solid t) := by
  induction t with
  | nil => rfl
  | cons c t ih =>
    rw [folded_cons]
    unfold solid at ih ⊢
    cases h : isSpace c <;> simp [h, ih]

theorem isBlankOnly_of_solid {t : Text} (h : solid t ≠ []) : isBlankOnly t = false := by
  rw [← Bool.not_eq_true, ← ink_eq_nil_iff]
  intro hink
  rw [← solid_ink, hink] at h
  exact h rfl

/-- No trimming at the end of the text takes ink: its ink does not end in white space. -/
def Sturdy (t : Text) : Prop := (ink t).getLast?.all (fun c => !isSpace c) = true

instance (t : Text) : Decidable (Sturdy t) := inferInstanceAs (Decidable (_ = true))

theorem sturdy_iff_of_ink_eq {s t : Text} (h : ink s = ink t) : Sturdy s ↔ Sturdy t := by
  rw [Sturdy, Sturdy, h]

theorem ink_trimRight_isPrefix (t : Text) : ink (trimRight t) <+: ink t :=
  (trimRight_isPrefix t).filter _

/-- Trimming the end keeps the ink of exactly the sturdy texts. -/
theorem ink_trimRight_eq_iff (t : Text) : ink (trimRight t) = ink t ↔ Sturdy t := by
  induction t using List.reverseRecOn with
  | nil => exact ⟨fun _ => rfl, fun _ => rfl⟩
  | append_singleton t c ih =>
    cases hb : isBlank c with
    | true =>
      have hink : ink (t ++ [c]) = ink t := by simp [ink_cons, hb]
      rw [trimRight_append_space (isSpace_of_isBlank hb), hink, ih, sturdy_iff_of_ink_eq hink]
    | false =>
      have hink : ink (t ++ [c]) = ink t ++ [c] := by simp [ink_cons, hb]
      cases hs : isSpace c with
      | true =>
        rw [trimRight_append_space hs, hink]
        constructor
        · intro h
          have hle := (ink_trimRight_isPrefix t).length_le
          rw [h, List.length_append, List.length_singleton] at hle
          omega
        · intro h
          simp [Sturdy, hink, hs] at h
      | false =>
        rw [trimRight_append_singleton hs]
        simp [Sturdy, hink, hs]

theorem ink_trimLeft_isSuffix (t : Text) : ink (trimLeft t) <:+ ink t :=
  (List.dropWhile_suffix _).filter _

theorem ink_trimLeft_eq_iff (t : Text) :
    ink (trimLeft t) = ink t ↔ (ink t).head?.all (fun c => !isSpace c) = true := by
  induction t with
  | nil => exact ⟨fun _ => rfl, fun _ => rfl⟩
  | cons c t ih =>
    cases hs : isSpace c with
    | false =>
      have hb : isBlank c = false := by
        cases hb : isBlank c with
        | false => rfl
        | true => rw [isSpace_of_isBlank hb] at hs; contradiction
      simp [trimLeft, ink_cons, hs, hb]
    | true =>
      have htrim : trimLeft (c :: t) = trimLeft t := by simp [trimLeft, hs]
      rw [htrim]
      cases hb : isBlank c with
      | true => rw [ink_cons, if_pos hb, ih]
      | false =>
        have hink : ink (c :: t) = c :: ink t := by simp [ink_cons, hb]
        rw [hink]
        constructor
        · intro h
          have hle := (ink_trimLeft_isSuffix t).length_le
          rw [h, List.length_cons] at hle
          omega
        · intro h
          simp [hs] at h

/-- No trimming at the ends of the text takes ink: its ink neither begins nor ends in white
space. -/
def Firm (t : Text) : Prop := (ink t).head?.all (fun c => !isSpace c) = true ∧ Sturdy t

instance (t : Text) : Decidable (Firm t) := inferInstanceAs (Decidable (_ ∧ _))

theorem firm_iff_of_ink_eq {s t : Text} (h : ink s = ink t) : Firm s ↔ Firm t := by
  rw [Firm, Firm, h, sturdy_iff_of_ink_eq h]

theorem ink_trim_sublist (t : Text) : (ink (trim t)).Sublist (ink t) :=
  (ink_trimRight_isPrefix _).sublist.trans (ink_trimLeft_isSuffix t).sublist

/-- Trimming both ends keeps the ink of exactly the firm texts. -/
theorem ink_trim_eq_iff (t : Text) : ink (trim t) = ink t ↔ Firm t := by
  have hright := ink_trimRight_eq_iff (trimLeft t)
  constructor
  · intro h
    have hleft : ink (trimLeft t) = ink t := by
      refine (ink_trimLeft_isSuffix t).eq_of_length (Nat.le_antisymm ?_ ?_)
      · exact (ink_trimLeft_isSuffix t).length_le
      · rw [← h]
        exact (ink_trimRight_isPrefix _).length_le
    refine ⟨(ink_trimLeft_eq_iff t).mp hleft, (sturdy_iff_of_ink_eq hleft).mp (hright.mp ?_)⟩
    rw [hleft]
    exact h
  · rintro ⟨hhead, hlast⟩
    have hleft := (ink_trimLeft_eq_iff t).mpr hhead
    rw [trim, hright.mpr ((sturdy_iff_of_ink_eq hleft).mpr hlast), hleft]

/-! ## Texts that trimming keeps -/

/-- The text does not end in white space. -/
def Ended (t : Text) : Prop := ∀ c ∈ t.getLast?, isSpace c = false

/-- The text neither begins nor ends in white space. -/
structure Tight (t : Text) : Prop where
  begun : ∀ c ∈ t.head?, isSpace c = false
  ended : t.Ended

theorem trimRight_of_ended {t : Text} (h : t.Ended) : trimRight t = t := by
  induction t using List.reverseRecOn with
  | nil => rfl
  | append_singleton t c => exact trimRight_append_singleton (h c (by simp))

theorem ended_append {s t : Text} (hne : t ≠ []) (h : t.Ended) : (s ++ t).Ended := by
  intro c hc
  have hlast := List.getLast?_eq_some_getLast hne
  rw [List.getLast?_append, hlast, Option.some_or, ← hlast] at hc
  exact h c hc

/-- Blanks around a text that is tight are trimmed away. -/
theorem trim_blanks {b t b' : Text} (hb : isBlankOnly b = true) (ht : t.Tight)
    (hb' : isBlankOnly b' = true) : trim (b ++ t ++ b') = t := by
  have hright := trimRight_append_of_isBlankOnly t hb'
  rw [trimRight_of_ended ht.ended] at hright
  have hleft : trimLeft (b ++ t ++ b') = trimLeft (t ++ b') := by
    rw [trimLeft, trimLeft, List.append_assoc]
    exact List.dropWhile_append_of_pos fun c hc => isSpace_of_isBlank (List.all_eq_true.mp hb c hc)
  rw [trim, hleft]
  cases t with
  | nil =>
    have hnone : trimLeft b' = [] := by
      have key := @List.dropWhile_append_of_pos _ isSpace b' [] fun c hc =>
        isSpace_of_isBlank (List.all_eq_true.mp hb' c hc)
      rwa [List.append_nil] at key
    rw [List.nil_append, hnone]
    rfl
  | cons c t =>
    have hc := ht.begun c rfl
    have hkept : trimLeft (c :: t ++ b') = c :: t ++ b' := by
      rw [trimLeft, List.cons_append, List.dropWhile_cons_of_neg (by simp [hc])]
    rw [hkept, hright]

namespace Tight

variable {s t u : Text}

theorem nil : Tight [] := ⟨by simp, by simp [Ended]⟩

theorem append (hs : s.Tight) (ht : t.Tight) : (s ++ t).Tight := by
  constructor
  · cases s with
    | nil => exact ht.begun
    | cons c s => exact hs.begun
  · by_cases hne : t = []
    · rw [hne, List.append_nil]
      exact hs.ended
    · exact ended_append hne ht.ended

/-- Anything may stand between two texts of which the first begins and the second ends a text. -/
theorem between (hs : s.Tight) (hne : s ≠ []) (m : Text) (ht : t.Tight) (hne' : t ≠ []) :
    (s ++ m ++ t).Tight := by
  refine ⟨?_, ended_append hne' ht.ended⟩
  cases s with
  | nil => exact absurd rfl hne
  | cons c s => exact hs.begun

end Tight

/-! ## Texts that begin with ink -/

/-- The text begins with a character that is no white space. -/
def Begun (t : Text) : Prop := ∃ c u, t = c :: u ∧ isSpace c = false

namespace Begun

theorem append {t : Text} (h : t.Begun) (u : Text) : (t ++ u).Begun := by
  obtain ⟨c, v, rfl, hc⟩ := h
  exact ⟨c, v ++ u, rfl, hc⟩

theorem solid_ne_nil {t : Text} (h : t.Begun) : t.solid ≠ [] := by
  obtain ⟨c, v, rfl, hc⟩ := h
  simp [solid, hc]

/-- A text that begins with ink still does so when its end is trimmed. -/
theorem trimRight_eq {c : Char} (hc : isSpace c = false) (t : Text) :
    trimRight (c :: t) = c :: trimRight t := by
  rw [trimRight, hc]
  split
  case h_1 h => simp [h]
  case h_2 => rfl

theorem trimRight {t : Text} (h : t.Begun) : (trimRight t).Begun := by
  obtain ⟨c, u, rfl, hc⟩ := h
  exact ⟨c, _, trimRight_eq hc u, hc⟩

/-- A text that is more than white space begins with ink when it is trimmed. -/
theorem trim {t : Text} (h : t.solid ≠ []) : (trim t).Begun := by
  rw [Text.trim]
  refine trimRight ?_
  have hhead := List.head?_dropWhile_not isSpace t
  rw [← solid_trimLeft] at h
  rw [trimLeft] at h ⊢
  cases hleft : t.dropWhile isSpace with
  | nil => exact absurd (by rw [hleft]; rfl) h
  | cons c u =>
    rw [hleft] at hhead
    exact ⟨c, u, rfl, by simpa using hhead⟩

end Begun

/-! ## Texts that keep ink -/

/-- The ink of `t` is ink of `f`, in order, and it is all of it exactly if `Whole` holds. What is no
white space is there in any case. -/
structure Keeps (t f : Text) (Whole : Prop) : Prop where
  sublist : (ink t).Sublist (ink f)
  eq_iff : ink t = ink f ↔ Whole
  solid_eq : solid t = solid f

namespace Keeps

variable {t u f g : Text} {Whole Whole' : Prop}

theorem of_ink_eq (h : ink t = ink f) : Keeps t f True :=
  ⟨h ▸ List.Sublist.refl _, iff_of_true h trivial, by rw [← solid_ink t, h, solid_ink]⟩

theorem refl (t : Text) : Keeps t t True := of_ink_eq rfl

theorem congr (h : Keeps t f Whole) (hw : Whole ↔ Whole') : Keeps t f Whole' :=
  ⟨h.sublist, h.eq_iff.trans hw, h.solid_eq⟩

/-- A text with the same ink keeps the same. -/
theorem congr_ink (h : Keeps t f Whole) (hink : ink u = ink t) : Keeps u f Whole :=
  ⟨hink ▸ h.sublist, hink ▸ h.eq_iff, by rw [← solid_ink u, hink, solid_ink, h.solid_eq]⟩

/-- Ink that is kept by parts is kept. -/
theorem append (h : Keeps t f Whole) (k : Keeps u g Whole') :
    Keeps (t ++ u) (f ++ g) (Whole ∧ Whole') := by
  refine ⟨?_, ?_, by rw [solid_append, solid_append, h.solid_eq, k.solid_eq]⟩
  · rw [ink_append, ink_append]
    exact h.sublist.append k.sublist
  · rw [ink_append, ink_append, ← h.eq_iff, ← k.eq_iff]
    constructor
    · intro heq
      have hlength := congrArg List.length heq
      simp only [List.length_append] at hlength
      have ht := h.sublist.length_le
      have hu := k.sublist.length_le
      exact ⟨h.sublist.eq_of_length (by omega), k.sublist.eq_of_length (by omega)⟩
    · rintro ⟨ht, hu⟩
      rw [ht, hu]

/-- Blanks may stand between the parts. -/
theorem append_blanks {b : Text} (hb : ink b = []) (h : Keeps t f Whole) :
    Keeps (b ++ t) f Whole := h.congr_ink (by rw [ink_append, hb, List.nil_append])

theorem verbatim (t : Text) (h : Keeps u g Whole) : Keeps (t ++ u) (t ++ g) Whole :=
  ((refl t).append h).congr (by simp)

theorem trim (h : Keeps t f Whole) : Keeps (trim t) f (Whole ∧ Firm f) := by
  refine ⟨(ink_trim_sublist t).trans h.sublist, ?_, (solid_trim t).trans h.solid_eq⟩
  constructor
  · intro heq
    have hle := (ink_trim_sublist t).length_le
    rw [heq] at hle
    have hink : ink t = ink f := h.sublist.eq_of_length (Nat.le_antisymm h.sublist.length_le hle)
    refine ⟨h.eq_iff.mp hink, (firm_iff_of_ink_eq hink).mp ((ink_trim_eq_iff t).mp ?_)⟩
    rw [heq, hink]
  · rintro ⟨hw, hf⟩
    have hink := h.eq_iff.mpr hw
    rw [(ink_trim_eq_iff t).mpr ((firm_iff_of_ink_eq hink).mpr hf), hink]

theorem trimRight (h : Keeps t f Whole) : Keeps (trimRight t) f (Whole ∧ Sturdy f) := by
  have hsub := (ink_trimRight_isPrefix t).sublist
  refine ⟨hsub.trans h.sublist, ?_, (solid_trimRight t).trans h.solid_eq⟩
  constructor
  · intro heq
    have hle := hsub.length_le
    rw [heq] at hle
    have hink : ink t = ink f := h.sublist.eq_of_length (Nat.le_antisymm h.sublist.length_le hle)
    refine ⟨h.eq_iff.mp hink, (sturdy_iff_of_ink_eq hink).mp ((ink_trimRight_eq_iff t).mp ?_)⟩
    rw [heq, hink]
  · rintro ⟨hw, hf⟩
    have hink := h.eq_iff.mpr hw
    rw [(ink_trimRight_eq_iff t).mpr ((sturdy_iff_of_ink_eq hink).mpr hf), hink]

end Keeps

end Gcode.Text
