import Gcode.Diagnostic.Problem
import Gcode.Source.Cursor

/-!
# Scanning one token

Each class of token has a scan that determines how far a token of it reaches from the cursor on.
A scan may be started wherever the cursor stands: one that reads its first character without
looking takes whatever is there, and fails only where nothing is ahead.

## Main definitions

* `Scan.comment`, `Scan.number`, `Scan.parameter`, `Scan.operator`, `Scan.letters`,
  `Scan.lineBreak` — the scans.
-/

namespace Gcode

/-- What a scan found: a token, the cursor behind it, and the reports about it. -/
structure Scanned where
  token : Token
  cursor : Cursor
  reports : List Report

namespace Scan

open Cursor (EndOfSource)

/-- The token of the given text that stands at the cursor. -/
def found (c : Cursor) (kind : TokenKind) (line : Int) (text : Text) : Scanned :=
  ⟨⟨kind, text, line⟩, c.skip text.length, []⟩

/-- The token of the given text that stands at the cursor and was read as nothing in particular
because of a problem. -/
def anomaly (c : Cursor) (line : Int) (text : Text) (problem : Problem) : Scanned :=
  ⟨⟨.unknown, text, line⟩, c.skip text.length, [⟨problem, line⟩]⟩

/-! ## Line breaks -/

/-- The line break that a text begins with, a pair of characters if it can be; else the first
character. -/
def breakText : Text → Text
  | '\r' :: '\n' :: _ => ['\r', '\n']
  | c :: _ => [c]
  | [] => []

/-- The line break at the cursor. -/
def lineBreak (c : Cursor) : Except EndOfSource (Text × Cursor) :=
  match c.rest with
  | [] => .error c.endOfSource
  | ch :: rest =>
    let text := breakText (ch :: rest)
    .ok (text, c.skip text.length)

/-! ## Comments -/

/-- A comment: behind a semicolon up to the line break, behind anything else up to the first
closing parenthesis. -/
def comment (line : Int) (c : Cursor) : Except EndOfSource Scanned :=
  match c.rest with
  | [] => .error c.endOfSource
  | ch :: rest =>
    if ch = ';' then
      .ok (found c .comment line (ch :: rest.takeWhile fun x => !Text.isBreak x))
    else
      let body := rest.takeWhile fun x => !Text.isBreak x && x ≠ ')'
      match rest.drop body.length with
      | ')' :: _ => .ok (found c .comment line (ch :: body ++ [')']))
      | _ => .ok (anomaly c line (ch :: body) (.unterminatedComment (ch :: body)))

/-! ## Numbers -/

/-- The digits that a text begins with, and one decimal point among them unless one has been
seen. -/
def numeral (point : Bool) : Text → Text
  | [] => []
  | c :: rest =>
    if c = '.' then if point then [] else c :: numeral true rest
    else if Text.isDigit c then c :: numeral point rest
    else []

/-- A number, which is empty where none begins. -/
def number (line : Int) (c : Cursor) : Scanned :=
  let text := numeral false c.rest
  if text = ['.'] then anomaly c line text .lonePoint else found c .number line text

/-! ## Parameters -/

/-- The name in angle brackets that a text begins with; the closing one may be missing at the
end of a line. -/
def angleName : Text → Text
  | [] => []
  | c :: rest =>
    let name := rest.takeWhile fun x => x ≠ '>' && !Text.isBreak x
    match rest.drop name.length with
    | '>' :: _ => c :: name ++ ['>']
    | _ => c :: name

/-- A parameter: a name in angle brackets, or any character and then such a name or digits. -/
def parameter (line : Int) (c : Cursor) : Except EndOfSource Scanned :=
  match c.rest with
  | [] => .error c.endOfSource
  | ch :: rest =>
    if ch = '<' then .ok (found c .parameter line (angleName (ch :: rest)))
    else if rest.head? = some '<' then .ok (found c .parameter line (ch :: angleName rest))
    else .ok (found c .parameter line (ch :: rest.takeWhile Text.isDigit))

/-! ## Operators -/

/-- The operator at the cursor, or a percent sign, which is a word; `none` before anything
else. -/
def operator (line : Int) (c : Cursor) : Except EndOfSource (Option Scanned) :=
  match c.rest with
  | [] => .error c.endOfSource
  | '*' :: '*' :: _ => .ok (some (found c .operator line "**"))
  | ch :: _ =>
    if ch = '%' then .ok (some (found c .word line [ch]))
    else if ch = '+' || ch = '-' || ch = '/' || ch = '*' then
      .ok (some (found c .operator line [ch]))
    else .ok none

/-! ## Letters -/

/-- A character that words are made of. -/
def isWordChar (c : Char) : Bool := Text.isLetter c || c = '$'

/-- The run of letters at the cursor, which may be empty. -/
def letters (c : Cursor) : Text × Cursor :=
  let text := c.rest.takeWhile isWordChar
  (text, c.skip text.length)

/-! ## What a scan takes

The text of the token a scan finds is what the cursor passes over. -/

/-- The scanned token is the text between the cursor and the one behind the token. -/
def Covers (c : Cursor) (s : Scanned) : Prop := c.rest = s.token.value ++ s.cursor.rest

theorem covers_found {c : Cursor} {text : Text} (h : text <+: c.rest) (kind : TokenKind)
    (line : Int) : Covers c (found c kind line text) := by
  obtain ⟨t, ht⟩ := h
  simp [Covers, found, ← ht]

theorem covers_anomaly {c : Cursor} {text : Text} (h : text <+: c.rest) (line : Int)
    (problem : Problem) : Covers c (anomaly c line text problem) := by
  obtain ⟨t, ht⟩ := h
  simp [Covers, anomaly, ← ht]

theorem breakText_isPrefix (t : Text) : breakText t <+: t := by
  fun_cases breakText t <;> simp

theorem breakText_ne_nil {t : Text} (h : t ≠ []) : breakText t ≠ [] := by
  fun_cases breakText t <;> simp_all

theorem numeral_isPrefix (point : Bool) (t : Text) : numeral point t <+: t := by
  fun_induction numeral point t <;> simp_all

theorem cons_drop_of_takeWhile {p : Char → Bool} {t : Text} {c : Char} {r : Text}
    (h : t.drop (t.takeWhile p).length = c :: r) : t = t.takeWhile p ++ c :: r := by
  have ht : t.takeWhile p ++ t.dropWhile p = t := List.takeWhile_append_dropWhile
  have hd : (t.takeWhile p ++ t.dropWhile p).drop (t.takeWhile p).length = t.dropWhile p :=
    List.drop_left
  rw [ht, h] at hd
  rw [hd, ht]

theorem angleName_isPrefix (t : Text) : angleName t <+: t := by
  fun_cases angleName t with
  | case1 => simp
  | case2 c rest name r h =>
    have := cons_drop_of_takeWhile h
    exact ⟨r, by simpa [name] using this.symm⟩
  | case3 c rest name h =>
    exact (List.prefix_cons_inj c).mpr (List.takeWhile_prefix _)

theorem covers_comment {line : Int} {c : Cursor} {s : Scanned} (h : comment line c = .ok s) :
    Covers c s ∧ s.token.value ≠ [] := by
  unfold comment at h
  split at h
  · simp at h
  case h_2 ch rest hr =>
    split at h
    · cases h
      refine ⟨covers_found ?_ _ _, by simp [found]⟩
      rw [hr]
      exact (List.prefix_cons_inj ch).mpr (List.takeWhile_prefix _)
    · simp only at h
      split at h
      case h_1 r hd =>
        cases h
        refine ⟨covers_found ?_ _ _, by simp [found]⟩
        rw [hr]
        have := cons_drop_of_takeWhile hd
        exact ⟨r, by simpa using this.symm⟩
      · cases h
        refine ⟨covers_anomaly ?_ _ _, by simp [anomaly]⟩
        rw [hr]
        exact (List.prefix_cons_inj ch).mpr (List.takeWhile_prefix _)

theorem covers_number (line : Int) (c : Cursor) : Covers c (number line c) := by
  unfold number
  simp only
  split
  case isTrue h => exact covers_anomaly (numeral_isPrefix _ _) _ _
  case isFalse => exact covers_found (numeral_isPrefix _ _) _ _

theorem numeral_ne_nil {ch : Char} (h : Text.isDigit ch = true ∨ ch = '.') (rest : Text) :
    numeral false (ch :: rest) ≠ [] := by
  rw [numeral]
  rcases h with hd | rfl
  · split <;> simp_all
  · simp

@[simp] theorem value_number (line : Int) (c : Cursor) :
    (number line c).token.value = numeral false c.rest := by
  unfold number
  dsimp only
  split <;> rfl

theorem covers_parameter {line : Int} {c : Cursor} {s : Scanned} (h : parameter line c = .ok s) :
    Covers c s ∧ s.token.value ≠ [] := by
  unfold parameter at h
  split at h
  · simp at h
  case h_2 ch rest hr =>
    split at h
    · cases h
      refine ⟨covers_found (hr ▸ angleName_isPrefix _) _ _, ?_⟩
      simp only [found, angleName]
      split <;> simp
    · split at h
      · cases h
        refine ⟨covers_found ?_ _ _, by simp [found]⟩
        rw [hr]
        exact (List.prefix_cons_inj ch).mpr (angleName_isPrefix _)
      · cases h
        refine ⟨covers_found ?_ _ _, by simp [found]⟩
        rw [hr]
        exact (List.prefix_cons_inj ch).mpr (List.takeWhile_prefix _)

theorem covers_operator {line : Int} {c : Cursor} {s : Scanned}
    (h : operator line c = .ok (some s)) : Covers c s ∧ s.token.value ≠ [] := by
  unfold operator at h
  split at h
  · simp at h
  case h_2 r hr =>
    cases h
    exact ⟨covers_found ⟨r, by rw [hr]; rfl⟩ _ _, by simp [found]⟩
  case h_3 ch r _ hr =>
    split at h
    · cases h
      exact ⟨covers_found ⟨r, by rw [hr]; rfl⟩ _ _, by simp [found]⟩
    · split at h
      · cases h
        exact ⟨covers_found ⟨r, by rw [hr]; rfl⟩ _ _, by simp [found]⟩
      · simp at h

end Scan

end Gcode
