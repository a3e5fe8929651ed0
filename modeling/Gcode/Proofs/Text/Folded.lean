import Gcode.Text.Casing
import Gcode.Text.WhiteSpace

/-!
# Texts up to the case of ASCII letters

Two texts agree up to the case of ASCII letters if they are the same once all these letters are
in lower case. The reader of programs looks at the case of a letter only through the full case
mappings, and these do not tell the two cases of an ASCII letter apart.

## Main definitions

* `Text.folded` — a text with its ASCII letters in lower case.

## Main statements

* `upper_folded`, `lower_folded` — the case mappings see a folded text as the text itself.
* `folded_lower` — a text in lower case is folded.
-/

namespace Gcode.Text

/-- The text with its ASCII letters in lower case. -/
def folded (t : Text) : Text := t.map Char.toLower

@[simp] theorem folded_nil : folded [] = [] := rfl

@[simp] theorem folded_cons (c : Char) (t : Text) : folded (c :: t) = c.toLower :: folded t := rfl

@[simp] theorem folded_append (s t : Text) : folded (s ++ t) = folded s ++ folded t :=
  List.map_append

@[simp] theorem length_folded (t : Text) : (folded t).length = t.length := List.length_map _

@[simp] theorem folded_eq_nil {t : Text} : folded t = [] ↔ t = [] := List.map_eq_nil_iff

@[simp] theorem isEmpty_folded (t : Text) : (folded t).isEmpty = t.isEmpty := by
  cases t <;> rfl

/-! ## Single characters -/

/-- Behind the capital letters of ASCII, nothing changes in lower case. -/
theorem toLower_of_lt {c : Char} (h : 90 < c.toNat) : c.toLower = c := by
  unfold Char.toLower
  split
  case isFalse => rfl
  case isTrue hc =>
    have high : c.toNat ≤ 90 := hc.2
    omega

/-- What holds between each character and itself, and between each ASCII character and its lower
case, holds between each character and its lower case. -/
theorem toLower_induction {P : Char → Char → Prop} (wide : ∀ c, P c c)
    (ascii : ∀ n < 128, P (Char.ofNat n) (Char.ofNat n).toLower) (c : Char) : P c c.toLower := by
  by_cases h : c.toNat < 128
  · have key := ascii c.toNat h
    rwa [Char.ofNat_toNat] at key
  · rw [toLower_of_lt (by omega)]
    exact wide c

@[simp] theorem toLower_toLower (c : Char) : c.toLower.toLower = c.toLower :=
  toLower_induction (P := fun c d => d.toLower = c.toLower) (fun _ => rfl) (by decide) c

@[simp] theorem isBlank_toLower (c : Char) : isBlank c.toLower = isBlank c :=
  toLower_induction (P := fun c d => isBlank d = isBlank c) (fun _ => rfl) (by decide) c

@[simp] theorem isBreak_toLower (c : Char) : isBreak c.toLower = isBreak c :=
  toLower_induction (P := fun c d => isBreak d = isBreak c) (fun _ => rfl) (by decide) c

@[simp] theorem isDigit_toLower (c : Char) : isDigit c.toLower = isDigit c :=
  toLower_induction (P := fun c d => isDigit d = isDigit c) (fun _ => rfl) (by decide) c

@[simp] theorem isSpace_toLower (c : Char) : isSpace c.toLower = isSpace c :=
  toLower_induction (P := fun c d => isSpace d = isSpace c) (fun _ => rfl) (by decide) c

@[simp] theorem isLetter_toLower (c : Char) : isLetter c.toLower = isLetter c :=
  toLower_induction (P := fun c d => isLetter d = isLetter c) (fun _ => rfl) (by decide) c

/-- A character that is no letter is found again in lower case. -/
theorem toLower_eq_iff {d : Char} (h : isLetter d = false) (c : Char) : c.toLower = d ↔ c = d := by
  refine toLower_induction (P := fun c e => e = d ↔ c = d) (fun _ => Iff.rfl) ?_ c
  intro n hn
  constructor
  · intro e
    subst e
    revert n
    decide
  · rintro rfl
    revert n
    decide

@[simp] theorem folded_folded (t : Text) : folded (folded t) = folded t := by
  simp [folded]

/-! ## The case mappings -/

@[simp] theorem upperOf_toLower (c : Char) : upperOf c.toLower = upperOf c :=
  toLower_induction (P := fun c d => upperOf d = upperOf c) (fun _ => rfl) (by decide) c

@[simp] theorem lowerOf_toLower (c : Char) : lowerOf c.toLower = lowerOf c :=
  toLower_induction (P := fun c d => lowerOf d = lowerOf c) (fun _ => rfl) (by decide) c

@[simp] theorem isCased_toLower (c : Char) : isCased c.toLower = isCased c :=
  toLower_induction (P := fun c d => isCased d = isCased c) (fun _ => rfl) (by decide) c

@[simp] theorem isCaseIgnorable_toLower (c : Char) :
    isCaseIgnorable c.toLower = isCaseIgnorable c :=
  toLower_induction (P := fun c d => isCaseIgnorable d = isCaseIgnorable c) (fun _ => rfl)
    (by decide +kernel) c

/-- Upper case sees a folded text as the text itself. -/
@[simp] theorem upper_folded (t : Text) : upper (folded t) = upper t := by
  induction t with
  | nil => rfl
  | cons c t ih => simp [ih]

@[simp] theorem casedNext_folded (t : Text) : casedNext (folded t) = casedNext t := by
  induction t with
  | nil => rfl
  | cons c t ih => simp [casedNext, ih]

theorem lowerAfter_folded (cased : Bool) (t : Text) :
    lowerAfter cased (folded t) = lowerAfter cased t := by
  induction t generalizing cased with
  | nil => rfl
  | cons c t ih =>
    have sigma : c.toLower = 'Σ' ↔ c = 'Σ' := toLower_eq_iff (by decide) c
    simp [lowerAfter, ih, sigma]

/-- Lower case sees a folded text as the text itself. -/
@[simp] theorem lower_folded (t : Text) : lower (folded t) = lower t := lowerAfter_folded false t

/-- Texts that agree when folded agree in lower case. -/
theorem lower_eq_of_folded_eq {s t : Text} (h : folded s = folded t) : lower s = lower t := by
  rw [← lower_folded s, h, lower_folded]

theorem toLower_ofNat {n : Nat} (h : 90 < n) : (Char.ofNat n).toLower = Char.ofNat n := by
  by_cases hn : n.isValidChar
  · rw [Char.ofNat, dif_pos hn]
    exact toLower_of_lt h
  · rw [Char.ofNat, dif_neg hn]
    rfl

/-- A case mapping of which no image lies before the small letters of ASCII does not map to
capital ones. -/
theorem folded_mapped {runs : List CaseRun} {expansions : List (Nat × List Nat)}
    (hruns : ∀ run ∈ runs, 90 < run.first + run.shift)
    (hexpansions : ∀ e ∈ expansions, ∀ n ∈ e.2, 90 < n) {c : Char} (hc : 90 < c.toNat) :
    folded (mapped runs expansions c) = mapped runs expansions c := by
  unfold mapped
  split
  case h_1 codes hcodes =>
    obtain ⟨l₁, l₂, htable, -⟩ := List.lookup_eq_some_iff.mp hcodes
    have hlow := hexpansions (c.toNat, codes) (by simp [htable])
    rw [folded, List.map_map]
    exact List.map_congr_left fun n hn => toLower_ofNat (hlow n hn)
  case h_2 =>
    split
    case h_1 code himage =>
      obtain ⟨run, hrun, himage⟩ := List.exists_of_findSome?_eq_some himage
      have hlow := hruns run hrun
      unfold CaseRun.image? at himage
      split at himage
      case isTrue =>
        have hcode := Option.some.inj himage
        rw [folded_cons, folded_nil, toLower_ofNat (by omega)]
      case isFalse => cases himage
    case h_2 => rw [folded_cons, folded_nil, toLower_of_lt hc]

/-- No ASCII letter in upper case is left in lower case. -/
@[simp] theorem folded_lowerOf (c : Char) : folded (lowerOf c) = lowerOf c := by
  unfold lowerOf
  split
  case isTrue => simp
  case isFalse hc => exact folded_mapped (by decide +kernel) (by decide) (by omega)

theorem folded_lowerAfter (cased : Bool) (t : Text) :
    folded (lowerAfter cased t) = lowerAfter cased t := by
  induction t generalizing cased with
  | nil => rfl
  | cons c t ih =>
    have hsigma : Char.toLower 'ς' = 'ς' := toLower_of_lt (by decide)
    rw [lowerAfter, folded_append, ih]
    split <;> simp [hsigma]

@[simp] theorem folded_lower (t : Text) : folded (lower t) = lower t := folded_lowerAfter false t

/-! ## ASCII texts -/

/-- The text is made of ASCII characters. -/
def Ascii (t : Text) : Prop := ∀ c ∈ t, c.toNat < 128

theorem Ascii.tail {c : Char} {t : Text} (h : Ascii (c :: t)) : Ascii t :=
  fun d hd => h d (List.mem_cons_of_mem c hd)

/-- ASCII letters in upper case are the same letters in another case. -/
theorem folded_upper {t : Text} (h : Ascii t) : folded (upper t) = folded t := by
  induction t with
  | nil => rfl
  | cons c t ih =>
    have hc : c.toNat < 128 := h c List.mem_cons_self
    have ascii : ∀ n < 128, (Char.ofNat n).toUpper.toLower = (Char.ofNat n).toLower := by decide
    have key := ascii c.toNat hc
    rw [Char.ofNat_toNat] at key
    rw [upper_cons, upperOf, if_pos hc, folded_append, folded_cons, folded_nil, key, ih h.tail]
    rfl

theorem Ascii.upper {t : Text} (h : Ascii t) : Ascii (upper t) := by
  induction t with
  | nil => exact h
  | cons c t ih =>
    have hc : c.toNat < 128 := h c List.mem_cons_self
    have ascii : ∀ n < 128, (Char.ofNat n).toUpper.toNat < 128 := by decide
    have key := ascii c.toNat hc
    rw [Char.ofNat_toNat] at key
    intro d hd
    rw [upper_cons, upperOf, if_pos hc, List.singleton_append] at hd
    rcases List.mem_cons.mp hd with rfl | hd
    · exact key
    · exact ih h.tail d hd

/-- The lower case of an ASCII text is the folded text. -/
theorem lower_eq_folded {t : Text} (h : Ascii t) : lower t = folded t := by
  unfold lower
  generalize false = cased
  induction t generalizing cased with
  | nil => rfl
  | cons c t ih =>
    have hc : c.toNat < 128 := h c List.mem_cons_self
    have hsigma : c ≠ 'Σ' := by
      rintro rfl
      revert hc
      decide
    rw [lowerAfter, ih h.tail]
    simp [hsigma, lowerOf, hc]

/-! ## Parts of a folded text -/

theorem takeWhile_folded {p : Char → Bool} (hp : ∀ c, p c.toLower = p c) (t : Text) :
    (folded t).takeWhile p = folded (t.takeWhile p) := by
  have same : p ∘ Char.toLower = p := funext hp
  rw [folded, List.takeWhile_map, same, folded]

@[simp] theorem take_folded (n : Nat) (t : Text) : (folded t).take n = folded (t.take n) :=
  List.map_take.symm

@[simp] theorem drop_folded (n : Nat) (t : Text) : (folded t).drop n = folded (t.drop n) :=
  List.map_drop.symm

@[simp] theorem isBlankOnly_folded (t : Text) : isBlankOnly (folded t) = isBlankOnly t := by
  induction t with
  | nil => rfl
  | cons c t ih => simp [ih]

theorem head?_folded_eq_some {d : Char} (h : isLetter d = false) (t : Text) :
    (folded t).head? = some d ↔ t.head? = some d := by
  cases t <;> simp [toLower_eq_iff h]

/-- A text without letters is found again when it is folded. -/
theorem folded_eq_iff {word : Text} (h : word.all fun c => !isLetter c) (t : Text) :
    folded t = word ↔ t = word := by
  induction word generalizing t with
  | nil => simp
  | cons d word ih =>
    simp only [List.all_cons, Bool.and_eq_true, Bool.not_eq_true'] at h
    cases t with
    | nil => simp
    | cons c t => simp [toLower_eq_iff h.1, ih h.2]

/-! ## Trimming and joining -/

@[simp] theorem trimRight_folded (t : Text) : trimRight (folded t) = folded (trimRight t) := by
  induction t with
  | nil => rfl
  | cons c t ih =>
    rw [folded_cons, trimRight, trimRight, ih, isSpace_toLower]
    cases trimRight t with
    | nil => cases isSpace c <;> rfl
    | cons d kept => rfl

@[simp] theorem trim_folded (t : Text) : trim (folded t) = folded (trim t) := by
  have same : isSpace ∘ Char.toLower = isSpace := funext isSpace_toLower
  rw [trim, trim, trimLeft, trimLeft, folded, List.dropWhile_map, same]
  exact trimRight_folded _

theorem joined_folded (separator : Text) (parts : List Text) :
    joined (folded separator) (parts.map folded) = folded (joined separator parts) := by
  fun_induction joined separator parts with
  | case1 | case2 => rfl
  | case3 part next parts ih =>
    rw [List.map_cons] at ih
    simp [joined, ih]

end Gcode.Text
