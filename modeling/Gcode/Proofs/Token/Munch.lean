import Gcode.Proofs.Token.Shape

/-!
# The longest keyword is taken

A run of letters is cut at the longest keyword that the rest of it begins with, of any length: that
the search for it is limited to the length of the longest keyword loses none, since no text is
longer than its upper case, which is what is compared with the keywords.

## Main definitions

* `Keyword.IsLongest` — the longest keyword that a text begins with.

## Main statements

* `Keyword.longest_eq_longestUpTo` — the limit on the search makes no difference.
* `Token.segment_munch` — each piece of a text is the longest keyword there, or one character.
-/

namespace Gcode

namespace Keyword

/-- The text `w` is the longest of the keywords, in any case, that `t` begins with. -/
structure IsLongest (w t : Text) : Prop where
  isPrefix : w <+: t
  isKeyword : Keyword.isKeyword w = true
  length_le : ∀ v, v <+: t → Keyword.isKeyword v = true → v.length ≤ w.length

/-- A text whose upper case is a keyword is no longer than the longest of them. -/
theorem length_le_of_isKeyword {w : Text} (h : isKeyword w = true) : w.length ≤ maxLength :=
  Nat.le_trans (Text.length_le_length_upper w)
    (length_le_maxLength _ (List.contains_iff_mem.mp h))

theorem le_longestUpTo {n m : Nat} {t : Text} (hm : m ≤ n) (h : isKeyword (t.take m) = true) :
    m ≤ longestUpTo n t := by
  induction n with
  | zero => exact Nat.le_trans hm (Nat.zero_le _)
  | succ n ih =>
    unfold longestUpTo
    split
    case isTrue => exact hm
    case isFalse hnot =>
      have hne : m ≠ n + 1 := by
        rintro rfl
        exact hnot h
      exact ih (by omega)

theorem isKeyword_take_longestUpTo {n : Nat} {t : Text} (h : longestUpTo n t ≠ 0) :
    isKeyword (t.take (longestUpTo n t)) = true := by
  induction n with
  | zero => exact absurd rfl h
  | succ n ih =>
    unfold longestUpTo at h ⊢
    split
    case isTrue hk => exact hk
    case isFalse hk =>
      rw [if_neg hk] at h
      exact ih h

/-- A keyword that the text begins with is found by the search. -/
theorem length_le_longest {w t : Text} (hw : w <+: t) (h : isKeyword w = true) :
    w.length ≤ longest t := by
  have htake : t.take w.length = w := (List.prefix_iff_eq_take.mp hw).symm
  refine le_longestUpTo (Nat.le_min.mpr ⟨hw.length_le, length_le_of_isKeyword h⟩) ?_
  rwa [htake]

/-- The limit on the search makes no difference: without it, nothing longer is found. -/
theorem longest_eq_longestUpTo (t : Text) : longest t = longestUpTo t.length t := by
  apply Nat.le_antisymm
  · by_cases h : longest t = 0
    · exact h ▸ Nat.zero_le _
    · exact le_longestUpTo (longest_le_length t) (isKeyword_take_longestUpTo h)
  · by_cases h : longestUpTo t.length t = 0
    · exact h ▸ Nat.zero_le _
    · have hle := length_le_longest (List.take_prefix _ t) (isKeyword_take_longestUpTo h)
      rwa [List.length_take, Nat.min_eq_left (longestUpTo_le t.length t)] at hle

theorem isLongest_take {t : Text} (h : longest t ≠ 0) : IsLongest (t.take (longest t)) t where
  isPrefix := List.take_prefix _ t
  isKeyword := isKeyword_take_longestUpTo h
  length_le v hv hk := by
    rw [List.length_take, Nat.min_eq_left (longest_le_length t)]
    exact length_le_longest hv hk

/-- If the search finds nothing, the text begins with no keyword. -/
theorem isKeyword_eq_false {t : Text} (h : longest t = 0) {w : Text} (hw : w <+: t) :
    isKeyword w = false := by
  by_contra hk
  rw [Bool.not_eq_false] at hk
  have hlength := length_le_longest hw hk
  rw [h, Nat.le_zero, List.length_eq_zero_iff] at hlength
  subst hlength
  contradiction

end Keyword

namespace Token

/-- The token is the first piece of the text: the longest keyword that the text begins with or, if
there is none, the first character, which is a word. -/
inductive Munches : Token → Text → Prop
  | keyword {w t : Text} (line : Int) : Keyword.IsLongest w t →
    Munches ⟨Keyword.kindOf w, w, line⟩ t
  | letter {c : Char} {rest : Text} (line : Int) :
    (∀ w, w <+: c :: rest → Keyword.isKeyword w = false) →
    Munches ⟨.word, [c], line⟩ (c :: rest)

/-- Each piece of a text is the first one of what is left of the text there. -/
theorem munches_segment {line : Int} {t : Text} {before behind : List Token} {token : Token}
    (h : segment line t = before ++ token :: behind) :
    token.line = line ∧ token.Munches (texts (token :: behind)) := by
  induction before generalizing t with
  | nil =>
    have htexts : texts (token :: behind) = t := by
      rw [← List.nil_append (token :: behind), ← h]
      exact flatMap_segment line t
    rw [htexts]
    unfold segment at h
    split at h
    · cases h
    case h_2 c rest =>
      split at h
      case h_1 hnone =>
        cases h
        exact ⟨rfl, .letter line fun w => Keyword.isKeyword_eq_false hnone⟩
      case h_2 n hlongest =>
        cases h
        have hword := Keyword.isLongest_take (t := c :: rest) (by rw [hlongest]; simp)
        rw [hlongest, List.take_succ_cons] at hword
        exact ⟨rfl, .keyword line hword⟩
  | cons first before ih =>
    unfold segment at h
    split at h
    · cases h
    · split at h
      · exact ih (List.cons.inj h).2
      · exact ih (List.cons.inj h).2

/-- The pieces of a text make up the text. If some keyword, of any length, begins what is left of
the text at a piece, the piece is the longest one, and its class is that of the keyword; else it is
a word of one character. Limiting the search for keywords makes no difference. -/
theorem segment_munch (line : Int) (t : Text) :
    texts (segment line t) = t ∧
    (∀ before token behind, segment line t = before ++ token :: behind →
      token.line = line ∧
      ((∃ w, w <+: texts (token :: behind) ∧ Keyword.isKeyword w = true) →
        Keyword.IsLongest token.value (texts (token :: behind)) ∧
          token.kind = Keyword.kindOf token.value) ∧
      ((∀ w, w <+: texts (token :: behind) → Keyword.isKeyword w = false) →
        token.kind = .word ∧ ∃ c, token.value = [c])) ∧
    ∀ rest, Keyword.longest rest = Keyword.longestUpTo rest.length rest := by
  refine ⟨flatMap_segment line t, fun before token behind h => ?_, Keyword.longest_eq_longestUpTo⟩
  obtain ⟨hline, hmunches⟩ := munches_segment h
  refine ⟨hline, ?_⟩
  generalize texts (token :: behind) = rest at hmunches ⊢
  cases hmunches with
  | keyword line hword =>
    refine ⟨fun _ => ⟨hword, rfl⟩, fun hnone => ?_⟩
    have hkeyword := hword.isKeyword
    rw [hnone _ hword.isPrefix] at hkeyword
    cases hkeyword
  | letter line hnone =>
    refine ⟨fun ⟨w, hw, hkeyword⟩ => ?_, fun _ => ⟨rfl, _, rfl⟩⟩
    rw [hnone w hw] at hkeyword
    cases hkeyword

example : (segment 1 "elseifSinx").map (fun t => (t.kind, String.ofList t.value)) =
    [(.flow, "elseif"), (.function, "Sin"), (.word, "x")] := by decide +kernel

end Token

end Gcode
