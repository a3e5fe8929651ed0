import Gcode.Text.CaseTable

/-!
# Upper and lower case

The full case mappings of Unicode: a character may become several, and a capital sigma becomes
the final form at the end of a word. ASCII letters take the short way and never reach the tables.

## Main definitions

* `Text.upper`, `Text.lower` — the mappings.

## Main statements

* `length_le_length_upper` — the mapping to upper case never shortens a text.
-/

namespace Gcode.Text

/-- The characters a code point maps to: by its expansion, else by its run, else to itself. -/
def mapped (runs : List CaseRun) (expansions : List (Nat × List Nat)) (c : Char) : Text :=
  match expansions.lookup c.toNat with
  | some codes => codes.map Char.ofNat
  | none =>
    match runs.findSome? (·.image? c.toNat) with
    | some code => [Char.ofNat code]
    | none => [c]

/-- The upper case of one character. -/
def upperOf (c : Char) : Text :=
  if c.toNat < 128 then [c.toUpper] else mapped upperRuns upperExpansions c

/-- The upper case of a text. -/
def upper (t : Text) : Text := t.flatMap upperOf

/-- A character with case that is not passed over in the search for one. -/
def isCased (c : Char) : Bool :=
  if c.toNat < 128 then isLetter c else CodePointSet.contains casedEdges c.toNat

/-- A character that is passed over in the search for a cased one: a mark, an apostrophe, … -/
def isCaseIgnorable (c : Char) : Bool := CodePointSet.contains caseIgnorableEdges c.toNat

/-- Whether the first character that is not ignorable is a cased one. -/
def casedNext : Text → Bool
  | [] => false
  | c :: rest => if isCaseIgnorable c then casedNext rest else isCased c

/-- The lower case of one character, away from the end of a word. -/
def lowerOf (c : Char) : Text :=
  if c.toNat < 128 then [c.toLower] else mapped lowerRuns lowerExpansions c

/-- The lower case of a text that stands behind a cased character, or behind none. A capital
sigma behind a cased character and before none takes its final form. -/
def lowerAfter (cased : Bool) : Text → Text
  | [] => []
  | c :: rest =>
    let image := if c = 'Σ' && cased && !casedNext rest then ['ς'] else lowerOf c
    image ++ lowerAfter (if isCaseIgnorable c then cased else isCased c) rest

/-- The lower case of a text. -/
def lower (t : Text) : Text := lowerAfter false t

@[simp] theorem upper_nil : upper [] = [] := rfl

@[simp] theorem upper_cons (c : Char) (t : Text) : upper (c :: t) = upperOf c ++ upper t := rfl

@[simp] theorem upper_append (s t : Text) : upper (s ++ t) = upper s ++ upper t := by
  simp [upper]

theorem mapped_ne_nil {runs : List CaseRun} {expansions : List (Nat × List Nat)}
    (h : ∀ e ∈ expansions, e.2 ≠ []) (c : Char) : mapped runs expansions c ≠ [] := by
  unfold mapped
  split
  case h_1 codes hc =>
    obtain ⟨l₁, l₂, rfl, -⟩ := List.lookup_eq_some_iff.mp hc
    simpa using h (c.toNat, codes) (by simp)
  case h_2 => split <;> simp

/-- No character vanishes in upper case. -/
theorem upperOf_ne_nil (c : Char) : upperOf c ≠ [] := by
  unfold upperOf
  split
  · simp
  · exact mapped_ne_nil (by decide) c

/-- The mapping to upper case never shortens a text. -/
theorem length_le_length_upper (t : Text) : t.length ≤ (upper t).length := by
  induction t with
  | nil => simp
  | cons c t ih =>
    have := List.length_pos_iff.mpr (upperOf_ne_nil c)
    simp only [upper_cons, List.length_append, List.length_cons]
    omega

end Gcode.Text
