import Gcode.Proofs.Parse.Statement

/-!
# O-word lines

An o-word line is read in steps: up to its label, up to its keyword, and up to its condition. What
it is depends on the keyword: a block, a header with commands behind it, or, if there is none, a
label with commands behind it.

## Main definitions

* `Parse.labelAhead`, `Parse.keywordAhead` — the label and the keyword of an o-word line.
* `Parse.labelled`, `Parse.keyworded`, `Parse.branched` — an o-word line up to one of its parts.

## Main statements

* `Parse.oStatement_opens`, `Parse.oStatement_branch`, `Parse.oStatement_bare` — what the line is.
* `Parse.oStatement_eq_ok` — what it may have been.
* `Parse.closesHere_eq_true` — what a line that closes a block has behind its o-word.
-/

namespace Gcode.Parse

/-! ## Parts of the line -/

/-- The label behind the o-word at hand. -/
def labelAhead (s : Setting) (depth : Nat) (ahead : List Token) :
    Parsed (Option Node) (advance s ahead).rest := value s depth (advance s ahead).rest

/-- The keyword behind the o-word at hand and its label. -/
def keywordAhead (s : Setting) (depth : Nat) (ahead : List Token) : Token :=
  current s (labelAhead s depth ahead).rest

variable (s : Setting) (depth : Nat) (ahead : List Token)

/-- An o-word line up to its label, which is the value. -/
def labelled : Parsed (Option Node) ahead :=
  (advance s ahead).behind (labelAhead s depth ahead)

/-- An o-word line up to its keyword, which is the value. -/
def keyworded : Parsed Token ahead :=
  (labelled s depth ahead).behind (advance s (labelled s depth ahead).rest)

/-- An o-word line that opens no block up to its condition, which is the value. -/
def branched : Parsed (Option Node) ahead :=
  (keyworded s depth ahead).behind (branchCondition s depth
    (Text.upper (keywordAhead s depth ahead).value) (keyworded s depth ahead).rest)

theorem labelAhead_subset_keyworded :
    (labelAhead s depth ahead).reports ⊆ (keyworded s depth ahead).reports :=
  fun _ hr => List.mem_append_left _ (List.mem_append_right _ hr)

theorem closingHeader_eq :
    closingHeader s depth ahead =
      ((keyworded s depth ahead).behind
        (optionalBracket s depth (keyworded s depth ahead).rest)).map
          (.header (current s ahead).value (labelAhead s depth ahead).value
            (Text.upper (keywordAhead s depth ahead).value)) := rfl

theorem closesHere_eq (label : Option Node) (close : Text) :
    closesHere s depth label close ahead =
      if isOWord (current s ahead) && ((keywordAhead s depth ahead).kind = .flow &&
          Text.upper (keywordAhead s depth ahead).value = close) then
        Node.labelsMatch label (labelAhead s depth ahead).value
      else .ok false := by
  unfold closesHere
  by_cases ho : isOWord (current s ahead) = true
  · rw [if_pos ho, ho, Bool.true_and]
    rfl
  · rw [if_neg ho, if_neg (by simp [ho])]

variable {s depth ahead}

/-- A block is closed where the keyword stands behind a label that matches. -/
theorem closesHere_eq_true {label : Option Node} {close : Text}
    (h : closesHere s depth label close ahead = .ok true) :
    isOWord (current s ahead) = true ∧ (keywordAhead s depth ahead).kind = .flow ∧
      Text.upper (keywordAhead s depth ahead).value = close ∧
        Node.labelsMatch label (labelAhead s depth ahead).value = .ok true := by
  rw [closesHere_eq] at h
  split at h
  case isTrue hk =>
    simp only [Bool.and_eq_true, decide_eq_true_eq] at hk
    exact ⟨hk.1, hk.2.1, hk.2.2, h⟩
  case isFalse => cases h

/-- A keyword takes a token. -/
theorem length_keyworded_lt (hk : (keywordAhead s depth ahead).kind = .flow) :
    (keyworded s depth ahead).rest.length < ahead.length := by
  refine Nat.lt_of_lt_of_le (length_advance_lt s ?_) (labelled s depth ahead).length_rest_le
  intro hend
  cases hend.symm.trans hk

/-! ## Kinds of lines -/

/-- A line that begins with an o-word is an o-word line. -/
theorem statement_eq_oStatement (ho : isOWord (current s ahead) = true) :
    statement s depth ahead = oStatement s depth ahead := by
  have hk := isOWord_kind ho
  have ha : startsAssignment s ahead = false := by simp [startsAssignment, hk]
  rw [statement]
  simp [hk, ha, ho]

/-- An o-word line whose keyword opens a block is a block. -/
theorem oStatement_opens (hk : (keywordAhead s depth ahead).kind = .flow)
    (hopens : (Keyword.closing? (Text.upper (keywordAhead s depth ahead).value)).isSome = true) :
    oStatement s depth ahead = (keyworded s depth ahead).tryBehind
      (block s depth (current s ahead) (labelAhead s depth ahead).value
        (Text.upper (keywordAhead s depth ahead).value) (keyworded s depth ahead).rest) := by
  rw [oStatement]
  dsimp only
  rw [dif_pos (by exact hk), if_pos (by exact hopens)]
  rfl

/-- An o-word line with another keyword is a header, and the commands behind it. -/
theorem oStatement_branch (hk : (keywordAhead s depth ahead).kind = .flow)
    (hopens : ¬(Keyword.closing? (Text.upper (keywordAhead s depth ahead).value)).isSome = true) :
    oStatement s depth ahead = .ok ((branched s depth ahead).behind (flatStatement s depth
      (.header (current s ahead).value (labelAhead s depth ahead).value
        (Text.upper (keywordAhead s depth ahead).value) (branched s depth ahead).value)
      (branched s depth ahead).rest)) := by
  rw [oStatement]
  dsimp only
  rw [dif_pos (by exact hk), if_neg (by exact hopens)]
  rfl

/-- An o-word line without a keyword is a label, and the commands behind it. -/
theorem oStatement_bare (hk : ¬(keywordAhead s depth ahead).kind = .flow) :
    oStatement s depth ahead = .ok ((labelled s depth ahead).behind (flatStatement s depth
      (.header (current s ahead).value (labelAhead s depth ahead).value [] none)
      (labelled s depth ahead).rest)) := by
  rw [oStatement]
  dsimp only
  rw [dif_neg (by exact hk)]
  rfl

/-- An o-word line that was read is a block, or a header, or a label. -/
theorem oStatement_eq_ok {p : Parsed Node ahead} (hp : oStatement s depth ahead = .ok p) :
    ((keywordAhead s depth ahead).kind = .flow ∧
        ∃ q, block s depth (current s ahead) (labelAhead s depth ahead).value
            (Text.upper (keywordAhead s depth ahead).value) (keyworded s depth ahead).rest = .ok q ∧
          p = (keyworded s depth ahead).behind q) ∨
      ((keywordAhead s depth ahead).kind = .flow ∧
        p = (branched s depth ahead).behind (flatStatement s depth
          (.header (current s ahead).value (labelAhead s depth ahead).value
            (Text.upper (keywordAhead s depth ahead).value) (branched s depth ahead).value)
          (branched s depth ahead).rest)) ∨
      p = (labelled s depth ahead).behind (flatStatement s depth
        (.header (current s ahead).value (labelAhead s depth ahead).value [] none)
        (labelled s depth ahead).rest) := by
  by_cases hk : (keywordAhead s depth ahead).kind = .flow
  · by_cases hopens :
        (Keyword.closing? (Text.upper (keywordAhead s depth ahead).value)).isSome = true
    · rw [oStatement_opens hk hopens] at hp
      exact .inl ⟨hk, Parsed.tryBehind_eq_ok hp⟩
    · rw [oStatement_branch hk hopens] at hp
      exact .inr (.inl ⟨hk, (Except.ok.inj hp).symm⟩)
  · rw [oStatement_bare hk] at hp
    exact .inr (.inr (Except.ok.inj hp).symm)

/-- An o-word line reports what is reported of its label. -/
theorem labelAhead_reports_subset {p : Parsed Node ahead}
    (hp : oStatement s depth ahead = .ok p) :
    (labelAhead s depth ahead).reports ⊆ p.reports := by
  intro r hr
  have hkeyworded := labelAhead_subset_keyworded s depth ahead hr
  obtain ⟨-, q, -, rfl⟩ | ⟨-, rfl⟩ | rfl := oStatement_eq_ok hp
  · exact List.mem_append_left _ hkeyworded
  · exact List.mem_append_left _ (List.mem_append_left _ hkeyworded)
  · exact List.mem_append_left _ (List.mem_append_right _ hr)

end Gcode.Parse
