import Gcode.Proofs.Token.Lexed

/-!
# Brackets among the tokens

The lexer counts the brackets that are open. It reads `]` as a closing bracket only if there is one,
so that among the first tokens of a program there are never more closing brackets than opening
ones, and a `]` that is none stands where there are as many of both. A `]` within a comment or a
name does not count.

## Main definitions

* `Token.openings`, `Token.closings` — the numbers of brackets among tokens.
* `Token.IsCode` — a token that is neither a name nor a comment.
* `Token.Shifts` — what a token does to the number of open brackets.
* `Bracketed` — tokens in front of which a number of brackets are open.

## Main statements

* `Lexer.read_shifts` — the lexer counts the brackets that it reads.
* `Lexer.run_bracketed` — its tokens are bracketed.
* `Bracketed.stray_iff` — which `]` are no closing brackets.
-/

namespace Gcode

namespace Token

/-- The number of opening brackets among the tokens. -/
def openings (ts : List Token) : Nat := ts.countP fun t => t.kind = .openBracket

/-- The number of closing brackets among the tokens. -/
def closings (ts : List Token) : Nat := ts.countP fun t => t.kind = .closeBracket

@[simp] theorem openings_nil : openings [] = 0 := rfl

@[simp] theorem closings_nil : closings [] = 0 := rfl

@[simp] theorem openings_append (ts us : List Token) :
    openings (ts ++ us) = openings ts + openings us := List.countP_append

@[simp] theorem closings_append (ts us : List Token) :
    closings (ts ++ us) = closings ts + closings us := List.countP_append

theorem openings_cons (t : Token) (ts : List Token) :
    openings (t :: ts) = openings ts + if t.kind = .openBracket then 1 else 0 := by
  simp [openings, List.countP_cons]

theorem closings_cons (t : Token) (ts : List Token) :
    closings (t :: ts) = closings ts + if t.kind = .closeBracket then 1 else 0 := by
  simp [closings, List.countP_cons]

/-- The token is neither a name nor a comment, nor the beginning of a comment. -/
def IsCode (t : Token) : Prop :=
  t.kind ≠ .parameter ∧ t.kind ≠ .comment ∧ ¬(t.kind = .unknown ∧ t.value.head? = some '(')

/-- The token takes the number of open brackets from the one to the other. -/
inductive Shifts (t : Token) : Nat → Nat → Prop
  | opening {n : Nat} : t.kind = .openBracket → t.value = "[" → Shifts t n (n + 1)
  | closing {n : Nat} : t.kind = .closeBracket → t.value = "]" → Shifts t (n + 1) n
  /-- Where no bracket is open, `]` is stray text. -/
  | stray : t.kind = .unknown → t.value = "]" → Shifts t 0 0
  | other {n : Nat} : t.kind ≠ .openBracket → t.kind ≠ .closeBracket →
    t.value.head? ≠ some ']' → (t.IsCode → ']' ∉ t.value) → Shifts t n n

/-- A token without `]` in it that is no bracket. -/
theorem Shifts.of_not_mem {t : Token} (hopen : t.kind ≠ .openBracket)
    (hclose : t.kind ≠ .closeBracket) (h : ']' ∉ t.value) (n : Nat) : t.Shifts n n :=
  .other hopen hclose (fun hhead => h (List.mem_of_mem_head? hhead)) fun _ => h

theorem IsPiece.shifts {t : Token} (h : t.IsPiece) (n : Nat) : t.Shifts n n := by
  have hkind := h.kind
  refine .of_not_mem ?_ ?_ (fun hmem => ?_) n
  · intro hk
    simp [hk, TokenKind.ofLetters] at hkind
  · intro hk
    simp [hk, TokenKind.ofLetters] at hkind
  · exact absurd (h.letters _ hmem) (by decide)

/-- Refining does not touch brackets. -/
theorem Shifts.refine {t : Token} {n m : Nat} (h : t.Shifts n m)
    (previous : Option TokenKind) : (t.refine previous).1.Shifts n m := by
  by_cases hk : t.kind = .function
  · unfold Token.refine
    split
    · exact h
    · have hcode : t.IsCode := by simp [IsCode, hk]
      cases h with
      | opening hk' | closing hk' | stray hk' => simp [hk] at hk'
      | other _ _ _ hmem =>
        have hnot := hmem hcode
        split
        case h_1 => exact .of_not_mem (by simp) (by simp) (by simp) n
        case h_2 c hv | h_3 c d rest hv =>
          rw [hv] at hnot
          exact .of_not_mem (by simp) (by simp) (by simp_all) n
  · rw [refine_of_kind_ne hk]
    exact h

end Token

/-- In front of the tokens, `n` brackets are open, and each token counts. -/
inductive Bracketed : Nat → List Token → Prop
  | nil (n : Nat) : Bracketed n []
  | cons {t : Token} {ts : List Token} {n m : Nat} : t.Shifts n m → Bracketed m ts →
    Bracketed n (t :: ts)

namespace Bracketed

open Token (openings closings)

theorem append_left {before after : List Token} {n : Nat} (h : Bracketed n (before ++ after)) :
    Bracketed n before := by
  induction before generalizing n with
  | nil => exact .nil n
  | cons t before ih =>
    cases h with
    | cons hshift h => exact .cons hshift (ih h)

/-- What stands behind some of the tokens is bracketed, too: the brackets among them count. -/
theorem append_right {before after : List Token} {n : Nat} (h : Bracketed n (before ++ after)) :
    ∃ m, Bracketed m after ∧ m + closings before = n + openings before := by
  induction before generalizing n with
  | nil => exact ⟨n, h, rfl⟩
  | cons t before ih =>
    cases h with
    | @cons _ _ _ k hshift h =>
      obtain ⟨m, hm, hcount⟩ := ih h
      refine ⟨m, hm, ?_⟩
      rw [Token.openings_cons, Token.closings_cons]
      cases hshift with
      | opening hk | closing hk | stray hk => simp only [hk, reduceCtorEq, if_true, if_false]; omega
      | other hopen hclose => simp only [hopen, hclose, if_false]; omega

theorem of_suffix {ts us : List Token} {n : Nat} (h : Bracketed n ts) (hs : us <:+ ts) :
    ∃ m, Bracketed m us := by
  obtain ⟨used, rfl⟩ := hs
  obtain ⟨m, hm, -⟩ := h.append_right
  exact ⟨m, hm⟩

/-- A bracket more is open behind an opening one. -/
theorem of_opening {t : Token} {ts : List Token} {n : Nat} (h : Bracketed n (t :: ts))
    (ht : t.kind = .openBracket) : Bracketed (n + 1) ts := by
  cases h with
  | cons hshift h =>
    cases hshift with
    | opening => exact h
    | closing hk | stray hk => simp [ht] at hk
    | other hk => exact absurd ht hk

/-- Where a bracket is open, a token that begins with `]` is a closing one. -/
theorem kind_of_head? {t : Token} {ts : List Token} {n : Nat} (h : Bracketed n (t :: ts))
    (hn : 0 < n) (ht : t.value.head? = some ']') : t.kind = .closeBracket := by
  cases h with
  | cons hshift _ =>
    cases hshift with
    | opening _ hv => simp [hv] at ht
    | closing hk => exact hk
    | stray => exact absurd hn (Nat.lt_irrefl 0)
    | other _ _ hhead => exact absurd ht hhead

/-- A `]` outside names and comments is a token of its own: a closing bracket if a bracket is open,
else stray text. -/
theorem of_mem {t : Token} {ts : List Token} {n : Nat} (h : Bracketed n (t :: ts))
    (hcode : t.IsCode) (hmem : ']' ∈ t.value) :
    t.value = "]" ∧ (0 < n ∧ t.kind = .closeBracket ∨ n = 0 ∧ t.kind = .unknown) := by
  cases h with
  | cons hshift _ =>
    cases hshift with
    | opening _ hv => simp [hv] at hmem
    | closing hk hv => exact ⟨hv, .inl ⟨Nat.succ_pos _, hk⟩⟩
    | stray hk hv => exact ⟨hv, .inr ⟨rfl, hk⟩⟩
    | other _ _ _ hnot => exact absurd hmem (hnot hcode)

/-- At no place more brackets were closed than opened. -/
theorem closings_le {before after : List Token} (h : Bracketed 0 (before ++ after)) :
    closings before ≤ openings before := by
  obtain ⟨m, -, hcount⟩ := h.append_right
  omega

/-- A `]` outside names and comments is no closing bracket exactly if as many brackets were closed
before it as were opened. -/
theorem stray_iff {before after : List Token} {t : Token} (h : Bracketed 0 (before ++ t :: after))
    (hcode : t.IsCode) (hmem : ']' ∈ t.value) : t.value = "]" ∧
      (t.kind = .unknown ↔ closings before = openings before) ∧
      (t.kind = .closeBracket ↔ closings before ≠ openings before) := by
  obtain ⟨m, hm, hcount⟩ := h.append_right
  obtain ⟨hvalue, hkind⟩ := hm.of_mem hcode hmem
  refine ⟨hvalue, ?_⟩
  rcases hkind with ⟨hpos, hk⟩ | ⟨rfl, hk⟩
  · have hne : closings before ≠ openings before := by omega
    simp [hk, hne]
  · have heq : closings before = openings before := by omega
    simp [hk, heq]

end Bracketed

/-! ## The lexer -/

namespace Scan

variable {c : Cursor} {ch : Char} {rest : Text} {line : Int} {s : Scanned}

/-- What is found without `]` in it is no bracket. -/
theorem found_shifts {kind : TokenKind} (hopen : kind ≠ .openBracket)
    (hclose : kind ≠ .closeBracket) {text : Text} (h : ']' ∉ text) (c : Cursor) (line : Int)
    (n : Nat) : (found c kind line text).token.Shifts n n :=
  .of_not_mem hopen hclose h n

/-- A `]` in a comment does not count. -/
theorem comment_shifts (hr : c.rest = ch :: rest) (hc : ch = ';' ∨ ch = '(')
    (h : comment line c = .ok s) (n : Nat) : s.token.Shifts n n := by
  have hhead : ch ≠ ']' := by
    rintro rfl
    simp at hc
  unfold comment at h
  rw [hr] at h
  dsimp only at h
  split at h
  case isTrue =>
    cases h
    exact .other (by simp [found]) (by simp [found]) (by simp [found, hhead])
      fun hcode => absurd rfl hcode.2.1
  case isFalse hne =>
    obtain rfl := hc.resolve_left hne
    split at h
    · cases h
      exact .other (by simp [found]) (by simp [found]) (by simp [found])
        fun hcode => absurd rfl hcode.2.1
    · cases h
      exact .other (by simp [anomaly]) (by simp [anomaly]) (by simp [anomaly])
        fun hcode => absurd ⟨rfl, rfl⟩ hcode.2.2

theorem mem_numeral {point : Bool} {t : Text} {d : Char} (h : d ∈ numeral point t) :
    Text.isDigit d = true ∨ d = '.' := by
  fun_induction numeral point t with
  | case1 | case2 | case5 => cases h
  | case3 =>
    rename_i ih
    rcases List.mem_cons.mp h with rfl | h
    · exact .inr rfl
    · exact ih h
  | case4 point d t _ hd ih =>
    rcases List.mem_cons.mp h with rfl | h
    · exact .inl hd
    · exact ih h

theorem number_shifts (line : Int) (c : Cursor) (n : Nat) : (number line c).token.Shifts n n := by
  unfold number
  dsimp only
  split
  case isTrue htext => exact .of_not_mem (by simp [anomaly]) (by simp [anomaly]) (by
    simp [anomaly, htext]) n
  case isFalse =>
    refine found_shifts (by decide) (by decide) (fun hmem => ?_) c line n
    rcases mem_numeral hmem with hd | hd <;> exact absurd hd (by decide)

/-- A `]` in a name does not count. -/
theorem parameter_shifts (hr : c.rest = ch :: rest) (hc : ch = '#' ∨ ch = '<')
    (h : parameter line c = .ok s) (n : Nat) : s.token.Shifts n n := by
  have hhead : ch ≠ ']' := by
    rintro rfl
    simp at hc
  have name : ∀ text : Text, text.head? = some ch →
      Token.Shifts (found c .parameter line text).token n n := by
    intro text htext
    refine .other (by simp [found]) (by simp [found]) ?_ fun hcode => absurd rfl hcode.1
    simp [found, htext, hhead]
  unfold parameter at h
  rw [hr] at h
  dsimp only at h
  split at h
  · cases h
    refine name _ ?_
    unfold angleName
    dsimp only
    split <;> rfl
  · split at h <;> cases h <;> exact name _ rfl

theorem operator_shifts (h : operator line c = .ok (some s)) (n : Nat) :
    s.token.Shifts n n := by
  unfold operator at h
  split at h
  · cases h
  · cases h
    exact found_shifts (by decide) (by decide) (by decide) c line n
  case h_3 d r _ _ =>
    split at h
    case isTrue hd =>
      cases h
      exact found_shifts (by decide) (by decide) (by simp [hd]) c line n
    split at h
    case isTrue hd =>
      cases h
      refine found_shifts (by decide) (by decide) (fun hmem => ?_) c line n
      obtain rfl := List.mem_singleton.mp hmem
      exact absurd hd (by decide)
    · cases h

end Scan

namespace Lexer

/-- The lexer counts the brackets that it meets. -/
theorem Meets.shifts {l : Lexer} {s : Scanned} {n : Nat} (h : l.Meets s n) :
    s.token.Shifts l.openBrackets n := by
  cases h with
  | lineBreak _ hb =>
    refine Scan.found_shifts (by decide) (by decide) (fun hmem => ?_) _ _ _
    exact absurd (Scan.isBreak_of_mem_breakText hb _ hmem) (by decide)
  | comment hr hc hs => exact Scan.comment_shifts hr hc hs _
  | number => exact Scan.number_shifts _ _ _
  | parameter hr hc hs => exact Scan.parameter_shifts hr hc hs _
  | assign => exact Scan.found_shifts (by decide) (by decide) (by decide) _ _ _
  | openBracket => exact .opening rfl rfl
  | closeBracket _ hopen =>
    obtain ⟨n, hn⟩ := Nat.exists_eq_succ_of_ne_zero (Nat.ne_of_gt hopen)
    rw [hn]
    exact .closing rfl rfl
  | operator _ hs => exact Scan.operator_shifts hs _
  | blanks =>
    refine Scan.found_shifts (by decide) (by decide) (fun hmem => ?_) _ _ _
    exact absurd (Scan.of_mem_takeWhile hmem) (by decide)
  | @stray ch _ _ _ _ _ _ hclosed =>
    by_cases hc : ch = ']'
    · subst hc
      rw [hclosed rfl]
      exact .stray rfl rfl
    · exact Scan.found_shifts (by decide) (by decide)
        (fun hmem => hc (List.mem_singleton.mp hmem).symm) _ _ _

/-- The lexer counts the brackets that it reads. -/
theorem read_shifts {l l' : Lexer} {t : Token} (h : l.read = .ok (t, l')) :
    t.Shifts l.openBrackets l'.openBrackets := by
  obtain ⟨-, rfl, rfl⟩ | ⟨s, n, hmeets, heq⟩ | ⟨ts, hs, rfl⟩ := read_eq_ok h
  · exact .of_not_mem (by simp) (by simp) (by simp) _
  · cases heq
    exact hmeets.shifts
  · exact (isPiece_of_letters hs).shifts _

/-- The lexer counts the brackets that it hands out: none of them waits. -/
theorem next_shifts {l l' : Lexer} {t : Token} (hq : l.Queued) (h : l.next = .ok (t, l')) :
    t.Shifts l.openBrackets l'.openBrackets := by
  obtain ⟨u, l₀, hpull, hhand⟩ := next_eq_ok h
  obtain ⟨rfl, rfl⟩ := Prod.mk.inj hhand
  have hpulled : u.Shifts l.openBrackets l₀.openBrackets := by
    obtain ⟨-, hread⟩ | ⟨more, hqueue, rfl⟩ := pull_eq_ok hpull
    · exact read_shifts hread
    · have hpiece : u.IsPiece := hq u (by simp [hqueue])
      exact hpiece.shifts _
  exact hpulled.refine l₀.previous

/-- The tokens of the lexer are bracketed. -/
theorem run_bracketed {l last : Lexer} {ts : List Token} (hq : l.Queued)
    (h : l.run = .ok (ts, last)) : Bracketed l.openBrackets ts := by
  fun_induction run l generalizing ts with
  | case1 => cases h
  | case2 l token l' hnext =>
    cases h
    exact .cons (next_shifts hq hnext) (.nil _)
  | case3 => cases h
  | case4 l token l' hnext hk tokens last' hrun ih =>
    cases h
    exact .cons (next_shifts hq hnext) (ih (queued_next hq hnext) hrun)

end Lexer

/-- The tokens of a program are bracketed. -/
theorem bracketed_ofSource {source : Text} {ts : List Token} {l : Lexer}
    (h : (Lexer.ofSource source).run = .ok (ts, l)) : Bracketed 0 ts :=
  Lexer.run_bracketed (by simp [Lexer.Queued, Lexer.ofSource, Lexer.ofCursor]) h

end Gcode
