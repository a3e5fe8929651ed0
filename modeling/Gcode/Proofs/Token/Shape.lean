import Gcode.Proofs.Source.Compact
import Gcode.Token.Lexer

/-!
# What the tokens of a program look like

The class of a token says what its text is made of. Every scan finds a token of such a text where
one begins, and finds it at the cursor.

## Main definitions

* `Token.Shape` — what the text of a token of a class looks like.
* `Scan.Finds` — the text of a scanned token is what the cursor passes over.
* `Scan.Stands` — the line of a scanned token, and the cursor behind it.
* `Token.IsPiece` — a piece of a run of letters.
-/

namespace Gcode

/-- Nothing in the text is white space or begins a comment. -/
def Text.Crisp (t : Text) : Prop := t ≠ [] ∧ ∀ c ∈ t, isSpace c = false ∧ c ≠ ';' ∧ c ≠ '('

namespace TokenKind

/-- The classes of the pieces that a run of letters is cut into. -/
def ofLetters : List TokenKind := [.word, .function, .flow, .logical, .comparison, .operator]

/-- The classes of numerals and of signs. -/
def ofSigns : List TokenKind := [.number, .word, .operator]

/-- The classes of tokens that hold no white space and begin no comment. -/
def solid : List TokenKind :=
  [.number, .word, .function, .operator, .comparison, .logical, .openBracket, .closeBracket,
    .assign, .flow]

end TokenKind

namespace Token

/-- The text of a token, by its class. -/
inductive Shape : TokenKind → Text → Prop
  | letters {kind : TokenKind} {v : Text} : kind ∈ TokenKind.ofLetters → v ≠ [] →
    (∀ c ∈ v, Scan.isWordChar c = true) → Shape kind v
  | sign {kind : TokenKind} {v : Text} : kind ∈ TokenKind.ofSigns → v.Crisp → Shape kind v
  | openBracket : Shape .openBracket "["
  | closeBracket : Shape .closeBracket "]"
  | assign : Shape .assign "="
  | parameter {c : Char} {v : Text} : Text.isSpace c = false → Text.Unbroken (c :: v) →
    Shape .parameter (c :: v)
  | lineComment {v : Text} : v.Unbroken → Shape .comment (';' :: v)
  | comment {v : Text} : v.Unbroken → ')' ∉ v → Shape .comment ('(' :: v ++ [')'])
  | unclosed {v : Text} : v.Unbroken → ')' ∉ v → Shape .unknown ('(' :: v)
  | blanks {v : Text} : v ≠ [] → Text.isBlankOnly v = true → Shape .unknown v
  | stray {c : Char} : Text.isBreak c = false → Text.isBlank c = false → c ≠ ';' → c ≠ '(' →
    Shape .unknown [c]
  | lineBreak {v : Text} : v ≠ [] → (∀ c ∈ v, Text.isBreak c = true) → Shape .endOfLine v

/-- The token is a comment, or the beginning of one, that only the end of its line ends. -/
def IsOpen (t : Token) : Prop :=
  t.kind = .comment ∧ t.value.head? = some ';' ∨ t.kind = .unknown ∧ t.value.head? = some '('

/-- What stands behind the token: a line break or nothing behind an open one, no blank behind
blanks. -/
structure Ends (t : Token) (rest : Text) : Prop where
  ofOpen : t.IsOpen → ∀ c ∈ rest.head?, Text.isBreak c = true
  ofBlanks : Text.isBlankOnly t.value = true → ∀ c ∈ rest.head?, Text.isBlank c = false

/-- The text of the tokens, one behind the other. -/
def texts (ts : List Token) : Text := ts.flatMap Token.value

@[simp] theorem texts_nil : texts [] = [] := rfl

@[simp] theorem texts_cons (t : Token) (ts : List Token) : texts (t :: ts) = t.value ++ texts ts :=
  rfl

@[simp] theorem texts_append (ts us : List Token) : texts (ts ++ us) = texts ts ++ texts us :=
  List.flatMap_append

end Token

/-! ## Crisp texts -/

namespace Text

theorem toNat_lt_of_isWordChar {c : Char} (h : Scan.isWordChar c = true) : c.toNat < 128 := by
  simp only [Scan.isWordChar, isLetter, Bool.or_eq_true, Bool.and_eq_true,
    decide_eq_true_eq] at h
  rcases h with (⟨-, h⟩ | ⟨-, h⟩) | rfl
  · exact Nat.lt_of_le_of_lt h (by decide)
  · exact Nat.lt_of_le_of_lt h (by decide)
  · decide

theorem isSpace_of_isWordChar {c : Char} (h : Scan.isWordChar c = true) :
    isSpace c = false ∧ c ≠ ';' ∧ c ≠ '(' := by
  have hc := toNat_lt_of_isWordChar h
  have ascii : ∀ n < 128, Scan.isWordChar (Char.ofNat n) = true →
      isSpace (Char.ofNat n) = false ∧ Char.ofNat n ≠ ';' ∧ Char.ofNat n ≠ '(' := by decide
  have key := ascii c.toNat hc
  rw [Char.ofNat_toNat] at key
  exact key h

theorem isSpace_of_isDigit {c : Char} (h : isDigit c = true) :
    isSpace c = false ∧ c ≠ ';' ∧ c ≠ '(' := by
  have hc : c.toNat < 128 := by
    simp only [isDigit, Bool.and_eq_true, decide_eq_true_eq] at h
    exact Nat.lt_of_le_of_lt h.2 (by decide)
  have ascii : ∀ n < 128, isDigit (Char.ofNat n) = true →
      isSpace (Char.ofNat n) = false ∧ Char.ofNat n ≠ ';' ∧ Char.ofNat n ≠ '(' := by decide
  have key := ascii c.toNat hc
  rw [Char.ofNat_toNat] at key
  exact key h

theorem isBlank_of_isSpace {c : Char} (h : isSpace c = false) : isBlank c = false := by
  cases hb : isBlank c with
  | false => rfl
  | true => rw [isSpace_of_isBlank hb] at h; contradiction

theorem isBreak_of_isSpace {c : Char} (h : isSpace c = false) : isBreak c = false := by
  cases hb : isBreak c with
  | false => rfl
  | true => rw [isSpace_of_isBreak hb] at h; contradiction

namespace Crisp

theorem unbroken {t : Text} (h : t.Crisp) : t.Unbroken := fun c hc =>
  isBreak_of_isSpace (h.2 c hc).1

theorem balanced {t : Text} (h : t.Crisp) : t.Balanced :=
  balanced_of_forall fun c hc => (h.2 c hc).2

theorem isBlankOnly {t : Text} (h : t.Crisp) : isBlankOnly t = false := by
  obtain ⟨hne, h⟩ := h
  cases t with
  | nil => exact absurd rfl hne
  | cons c t => simp [isBlank_of_isSpace (h c (by simp)).1]

theorem ofLetters {t : Text} (hne : t ≠ []) (h : ∀ c ∈ t, Scan.isWordChar c = true) : t.Crisp :=
  ⟨hne, fun c hc => isSpace_of_isWordChar (h c hc)⟩

end Crisp

end Text

namespace Token.Shape

variable {kind : TokenKind} {v : Text}

theorem ne_nil (h : Shape kind v) : v ≠ [] := by
  cases h with
  | letters _ hne _ | blanks hne _ | lineBreak hne _ => exact hne
  | sign _ hv => exact hv.1
  | parameter | openBracket | closeBracket | assign | lineComment | comment | unclosed | stray =>
    simp

theorem kind_ne_endOfFile (h : Shape kind v) : kind ≠ .endOfFile := by
  rintro rfl
  cases h with
  | letters hk => simp [TokenKind.ofLetters] at hk
  | sign hk => simp [TokenKind.ofSigns] at hk

/-- Only a line break holds one. -/
theorem unbroken (h : Shape kind v) (hk : kind ≠ .endOfLine) : v.Unbroken := by
  cases h with
  | letters _ hne hv => exact (Text.Crisp.ofLetters hne hv).unbroken
  | sign _ hv => exact hv.unbroken
  | openBracket | closeBracket | assign => simp [Text.isBreak]
  | parameter _ hv => exact hv
  | lineComment hv | unclosed hv => exact Text.unbroken_cons.mpr ⟨rfl, hv⟩
  | comment hv => simpa [Text.isBreak] using hv
  | blanks _ hv => exact Text.unbroken_of_isBlankOnly hv
  | stray hc => simpa using hc
  | lineBreak => exact absurd rfl hk

theorem isBreak (h : Shape .endOfLine v) : ∀ c ∈ v, Text.isBreak c = true := by
  cases h with
  | letters hk => simp [TokenKind.ofLetters] at hk
  | sign hk => simp [TokenKind.ofSigns] at hk
  | lineBreak _ hv => exact hv

theorem crisp (h : Shape kind v) (hk : kind ∈ TokenKind.solid) : v.Crisp := by
  cases h with
  | letters _ hne hv => exact Text.Crisp.ofLetters hne hv
  | sign _ hv => exact hv
  | openBracket | closeBracket | assign => exact ⟨by simp, by simp; decide⟩
  | parameter | lineComment | comment | unclosed | blanks | stray | lineBreak =>
    simp [TokenKind.solid] at hk

theorem eq_openBracket (h : Shape .openBracket v) : v = "[" := by
  cases h with
  | letters hk => simp [TokenKind.ofLetters] at hk
  | sign hk => simp [TokenKind.ofSigns] at hk
  | openBracket => rfl

theorem eq_closeBracket (h : Shape .closeBracket v) : v = "]" := by
  cases h with
  | letters hk => simp [TokenKind.ofLetters] at hk
  | sign hk => simp [TokenKind.ofSigns] at hk
  | closeBracket => rfl

theorem eq_assign (h : Shape .assign v) : v = "=" := by
  cases h with
  | letters hk => simp [TokenKind.ofLetters] at hk
  | sign hk => simp [TokenKind.ofSigns] at hk
  | assign => rfl

theorem ascii (h : Shape .flow v) : v.Ascii := by
  cases h with
  | letters _ _ hv => exact fun c hc => Text.toNat_lt_of_isWordChar (hv c hc)
  | sign hk => simp [TokenKind.ofSigns] at hk

end Token.Shape

/-! ## Scans -/

namespace Scan

/-- The scanned token looks as its class says, and is what the cursor passes over. -/
structure Finds (c : Cursor) (s : Scanned) : Prop where
  covers : Covers c s
  shape : Token.Shape s.token.kind s.token.value
  ends : s.token.Ends s.cursor.rest

/-- A crisp token may stand in front of anything. -/
theorem ends_of_crisp {t : Token} (h : t.value.Crisp) (rest : Text) : t.Ends rest where
  ofOpen ho := by
    have hhead : ∀ c, t.value.head? = some c → c ≠ ';' ∧ c ≠ '(' := fun c hc =>
      (h.2 c (List.mem_of_head? hc)).2
    rcases ho with ⟨-, ho⟩ | ⟨-, ho⟩
    · exact absurd rfl (hhead _ ho).1
    · exact absurd rfl (hhead _ ho).2
  ofBlanks hb := by rw [h.isBlankOnly] at hb; contradiction

theorem finds_sign {c : Cursor} {kind : TokenKind} {text : Text} (line : Int)
    (hk : kind ∈ TokenKind.ofSigns) (hp : text <+: c.rest) (ht : text.Crisp) :
    Finds c (found c kind line text) where
  covers := covers_found hp kind line
  shape := .sign hk ht
  ends := ends_of_crisp ht _

/-- A token of one crisp character is found where the character is. -/
theorem finds_char {c : Cursor} {ch : Char} {rest : Text} {kind : TokenKind} (line : Int)
    (hr : c.rest = ch :: rest) (hs : Token.Shape kind [ch]) (ht : Text.Crisp [ch]) :
    Finds c (found c kind line [ch]) where
  covers := covers_found (hr ▸ ⟨rest, rfl⟩) kind line
  shape := hs
  ends := ends_of_crisp ht _

theorem drop_takeWhile (p : Char → Bool) (t : Text) :
    t.drop (t.takeWhile p).length = t.dropWhile p := by
  induction t with
  | nil => rfl
  | cons c t ih => cases h : p c <;> simp [h, ih]

theorem head?_drop_takeWhile {p : Char → Bool} {t : Text} {c : Char}
    (h : c ∈ (t.drop (t.takeWhile p).length).head?) : p c = false := by
  rw [drop_takeWhile] at h
  have key := List.head?_dropWhile_not p t
  rw [h] at key
  simpa using key

theorem of_mem_takeWhile {p : Char → Bool} {t : Text} {c : Char} (h : c ∈ t.takeWhile p) :
    p c = true :=
  List.all_eq_true.mp List.all_takeWhile c h

theorem isBreak_of_mem_breakText {ch : Char} {rest : Text} (hb : Text.isBreak ch = true) :
    ∀ c ∈ breakText (ch :: rest), Text.isBreak c = true := by
  intro c hc
  unfold breakText at hc
  split at hc
  · simp only [List.mem_cons, List.not_mem_nil, or_false] at hc
    rcases hc with rfl | rfl <;> rfl
  · simp_all
  · contradiction

theorem finds_lineBreak {c : Cursor} {ch : Char} {rest : Text} (hr : c.rest = ch :: rest)
    (hb : Text.isBreak ch = true) (line : Int) :
    Finds c (found c .endOfLine line (breakText (ch :: rest))) where
  covers := covers_found (hr ▸ breakText_isPrefix _) _ _
  shape := .lineBreak (breakText_ne_nil (by simp)) (isBreak_of_mem_breakText hb)
  ends :=
    { ofOpen := by rintro (⟨h, -⟩ | ⟨h, -⟩) <;> cases h
      ofBlanks := by
        intro h
        have hne := breakText_ne_nil (t := ch :: rest) (by simp)
        obtain ⟨d, hd⟩ := List.exists_mem_of_ne_nil _ hne
        have hblank : Text.isBlank d = true := List.all_eq_true.mp h d hd
        rw [Text.not_isBlank_of_isBreak (isBreak_of_mem_breakText hb d hd)] at hblank
        contradiction }

/-- A comment is read, or the beginning of one. -/
theorem finds_comment {c : Cursor} {ch : Char} {rest : Text} (hr : c.rest = ch :: rest)
    (hc : ch = ';' ∨ ch = '(') (line : Int) : ∃ s, comment line c = .ok s ∧ Finds c s := by
  have unbroken_of_takeWhile : ∀ p : Char → Bool, (∀ x, p x = true → Text.isBreak x = false) →
      Text.Unbroken (rest.takeWhile p) := by
    intro p hp x hx
    exact hp x (of_mem_takeWhile hx)
  have notBlank : ∀ t : Text, Text.isBlankOnly (ch :: t) = false := by
    intro t
    rcases hc with rfl | rfl <;> simp [Text.isBlank]
  unfold comment
  rw [hr]
  by_cases hs : ch = ';'
  · subst hs
    refine ⟨_, by simp only [if_true]; rfl, ?_, ?_, ?_⟩
    · exact covers_found (hr ▸ (List.prefix_cons_inj _).mpr (List.takeWhile_prefix _)) _ _
    · exact .lineComment (unbroken_of_takeWhile _ fun x hx => by simpa using hx)
    · refine ⟨fun _ x hx => ?_, fun hb => absurd hb (by simp [found, notBlank])⟩
      simp only [found, Cursor.rest_skip, hr, List.length_cons, List.drop_succ_cons] at hx
      simpa using head?_drop_takeWhile hx
  · obtain rfl : ch = '(' := hc.resolve_left hs
    simp only [if_neg hs]
    have hbody : Text.Unbroken (rest.takeWhile fun x => !Text.isBreak x && x ≠ ')') :=
      unbroken_of_takeWhile _ fun x hx => by simp_all
    have hclose : ')' ∉ rest.takeWhile fun x => !Text.isBreak x && x ≠ ')' := by
      intro hx
      have := of_mem_takeWhile hx
      simp at this
    cases hd : rest.drop (rest.takeWhile fun x => !Text.isBreak x && x ≠ ')').length with
    | nil =>
      refine ⟨_, rfl, ?_, .unclosed hbody hclose, ?_, ?_⟩
      · exact covers_anomaly (hr ▸ (List.prefix_cons_inj _).mpr (List.takeWhile_prefix _)) _ _
      · intro _ x hx
        simp only [anomaly, Cursor.rest_skip, hr, List.length_cons, List.drop_succ_cons, hd] at hx
        contradiction
      · exact fun hb => absurd hb (by simp [anomaly, notBlank])
    | cons d r =>
      by_cases hp : d = ')'
      · subst hp
        have hrest := cons_drop_of_takeWhile hd
        refine ⟨_, rfl, ?_, .comment hbody hclose, ?_, ?_⟩
        · exact covers_found (hr ▸ ⟨r, by simpa using hrest.symm⟩) _ _
        · rintro (⟨-, h⟩ | ⟨h, -⟩)
          · simp [found] at h
          · cases h
        · exact fun hb => absurd hb (by simp [found, notBlank])
      · refine ⟨_, by split; (rename_i h; exact absurd (List.cons.inj h).1 hp); rfl, ?_,
          .unclosed hbody hclose, ?_, ?_⟩
        · exact covers_anomaly (hr ▸ (List.prefix_cons_inj _).mpr (List.takeWhile_prefix _)) _ _
        · intro _ x hx
          simp only [anomaly, Cursor.rest_skip, hr, List.length_cons, List.drop_succ_cons] at hx
          have hfalse := head?_drop_takeWhile hx
          rw [hd] at hx
          obtain rfl : d = x := by simpa using hx
          simpa [hp] using hfalse
        · exact fun hb => absurd hb (by simp [anomaly, notBlank])

theorem finds_blanks {c : Cursor} {ch : Char} {rest : Text} (hr : c.rest = ch :: rest)
    (hb : Text.isBlank ch = true) (line : Int) :
    Finds c (found c .unknown line ((ch :: rest).takeWhile Text.isBlank)) := by
  refine ⟨covers_found (hr ▸ List.takeWhile_prefix _) _ _, .blanks ?_ ?_, ?_, ?_⟩
  · simp [found, hb]
  · exact List.all_takeWhile
  · rintro (⟨h, -⟩ | ⟨-, h⟩)
    · cases h
    · simp only [found, List.takeWhile_cons, hb, if_true, List.head?_cons,
        Option.some.injEq] at h
      subst h
      contradiction
  · intro _ x hx
    simp only [found, Cursor.rest_skip, hr] at hx
    exact head?_drop_takeWhile hx

theorem finds_stray {c : Cursor} {ch : Char} {rest : Text} (hr : c.rest = ch :: rest)
    (hbreak : Text.isBreak ch = false) (hblank : Text.isBlank ch = false) (hsemi : ch ≠ ';')
    (hparen : ch ≠ '(') (line : Int) : Finds c (found c .unknown line [ch]) := by
  refine ⟨covers_found (hr ▸ ⟨rest, rfl⟩) _ _, .stray hbreak hblank hsemi hparen, ?_, ?_⟩
  · rintro (⟨h, -⟩ | ⟨-, h⟩)
    · cases h
    · exact absurd (Option.some.inj h) hparen
  · intro h
    simp [found, hblank] at h

theorem numeral_crisp {point : Bool} {t : Text} {c : Char} (h : c ∈ numeral point t) :
    Text.isSpace c = false ∧ c ≠ ';' ∧ c ≠ '(' := by
  fun_induction numeral point t with
  | case1 | case2 | case5 => contradiction
  | case3 point rest _ ih =>
    rcases List.mem_cons.mp h with rfl | h
    · decide
    · exact ih h
  | case4 point d rest _ hd ih =>
    rcases List.mem_cons.mp h with rfl | h
    · exact Text.isSpace_of_isDigit hd
    · exact ih h

theorem finds_number {c : Cursor} {ch : Char} {rest : Text} (hr : c.rest = ch :: rest)
    (hc : Text.isDigit ch = true ∨ ch = '.') (line : Int) : Finds c (number line c) := by
  have hne : numeral false c.rest ≠ [] := hr ▸ numeral_ne_nil hc rest
  unfold number
  simp only
  split
  case isTrue h =>
    refine ⟨covers_anomaly (numeral_isPrefix _ _) _ _, ?_, ?_, ?_⟩
    · simp only [anomaly, h]
      exact .stray (by decide) (by decide) (by decide) (by decide)
    · rintro (⟨hk, -⟩ | ⟨-, ho⟩)
      · cases hk
      · simp [anomaly, h] at ho
    · intro hb
      simp [anomaly, h, Text.isBlank] at hb
  case isFalse =>
    exact finds_sign line (by decide) (numeral_isPrefix _ _) ⟨hne, fun c hc => numeral_crisp hc⟩

theorem angleName_unbroken {c : Char} (hc : Text.isBreak c = false) (t : Text) :
    Text.Unbroken (angleName (c :: t)) := by
  have hname : Text.Unbroken (t.takeWhile fun x => x ≠ '>' && !Text.isBreak x) := by
    intro x hx
    have := of_mem_takeWhile hx
    simp_all
  unfold angleName
  dsimp only
  split
  · have hclose : Text.Unbroken ['>'] := Text.unbroken_cons.mpr ⟨rfl, Text.unbroken_nil⟩
    exact Text.unbroken_append.mpr ⟨Text.unbroken_cons.mpr ⟨hc, hname⟩, hclose⟩
  · exact Text.unbroken_cons.mpr ⟨hc, hname⟩

/-- A parameter is read where one begins. -/
theorem finds_parameter {c : Cursor} {ch : Char} {rest : Text} (hr : c.rest = ch :: rest)
    (hc : ch = '#' ∨ ch = '<') (line : Int) : ∃ s, parameter line c = .ok s ∧ Finds c s := by
  have hbreak : Text.isBreak ch = false := by rcases hc with rfl | rfl <;> rfl
  have hblank : Text.isBlank ch = false := by rcases hc with rfl | rfl <;> rfl
  have hspace : Text.isSpace ch = false := by rcases hc with rfl | rfl <;> rfl
  have finds : ∀ text : Text, ch :: text <+: c.rest → Text.Unbroken (ch :: text) →
      Finds c (found c .parameter line (ch :: text)) := by
    intro text hp hu
    refine ⟨covers_found hp _ _, .parameter hspace hu, ?_, ?_⟩
    · rintro (⟨h, -⟩ | ⟨h, -⟩) <;> cases h
    · intro h
      simp [found, hblank] at h
  unfold parameter
  simp only [hr]
  split
  case isTrue ha =>
    refine ⟨_, rfl, ?_⟩
    have hu := angleName_unbroken hbreak rest
    have hp := angleName_isPrefix (ch :: rest)
    have hcons : ∃ text, angleName (ch :: rest) = ch :: text := by
      unfold angleName
      dsimp only
      split <;> exact ⟨_, rfl⟩
    obtain ⟨text, htext⟩ := hcons
    rw [htext] at hu hp ⊢
    exact finds text (hr ▸ hp) hu
  case isFalse ha =>
    split
    case isTrue hh =>
      obtain ⟨r, rfl⟩ : ∃ r, rest = '<' :: r := by
        cases rest with
        | nil => simp at hh
        | cons d r => exact ⟨r, by simp_all⟩
      refine ⟨_, rfl, finds _ ?_ ?_⟩
      · rw [hr]
        exact (List.prefix_cons_inj ch).mpr (angleName_isPrefix _)
      · exact Text.unbroken_cons.mpr ⟨hbreak, angleName_unbroken (by decide) r⟩
    case isFalse =>
      refine ⟨_, rfl, finds _ ?_ ?_⟩
      · rw [hr]
        exact (List.prefix_cons_inj ch).mpr (List.takeWhile_prefix _)
      · refine Text.unbroken_cons.mpr ⟨hbreak, fun x hx => ?_⟩
        exact Text.isBreak_of_isSpace (Text.isSpace_of_isDigit (of_mem_takeWhile hx)).1

/-- Looking for an operator succeeds, whether there is one or not. -/
theorem finds_operator {c : Cursor} {ch : Char} {rest : Text} (hr : c.rest = ch :: rest)
    (line : Int) :
    operator line c = .ok none ∨ ∃ s, operator line c = .ok (some s) ∧ Finds c s := by
  have one : ∀ kind ∈ TokenKind.ofSigns, Text.Crisp [ch] →
      Finds c (found c kind line [ch]) := fun kind hk hcrisp =>
    finds_sign line hk (hr ▸ ⟨rest, rfl⟩) hcrisp
  unfold operator
  split
  case h_1 h => simp [hr] at h
  case h_2 r h =>
    exact .inr ⟨_, rfl, finds_sign line (by decide) ⟨r, h.symm⟩ (by simp [Text.Crisp]; decide)⟩
  case h_3 d r _ h =>
    obtain ⟨rfl, -⟩ : ch = d ∧ rest = r := List.cons.inj (hr.symm.trans h)
    split
    case isTrue hp =>
      subst hp
      exact .inr ⟨_, rfl, one _ (by decide) (by simp [Text.Crisp]; decide)⟩
    case isFalse =>
      split
      case isTrue hs =>
        refine .inr ⟨_, rfl, one _ (by decide) ?_⟩
        simp only [Bool.or_eq_true, decide_eq_true_eq] at hs
        rcases hs with ((rfl | rfl) | rfl) | rfl <;> (simp [Text.Crisp]; decide)
      case isFalse => exact .inl rfl

/-! ## Where a scanned token stands -/

/-- The scanned token stands at the cursor, which moves on by the text of the token. A line break
is taken whole. -/
structure Stands (c : Cursor) (s : Scanned) : Prop where
  line_eq : s.token.line = c.line
  cursor_eq : s.cursor = c.skip s.token.value.length
  ofBreak : s.token.kind = .endOfLine → s.token.value = breakText c.rest

theorem stands_found (c : Cursor) {kind : TokenKind} (hk : kind ≠ .endOfLine) (text : Text) :
    Stands c (found c kind c.line text) := ⟨rfl, rfl, fun h => absurd h hk⟩

theorem stands_anomaly (c : Cursor) (text : Text) (problem : Problem) :
    Stands c (anomaly c c.line text problem) := ⟨rfl, rfl, fun h => by simp [anomaly] at h⟩

theorem stands_comment {c : Cursor} {s : Scanned} (h : comment c.line c = .ok s) :
    Stands c s := by
  unfold comment at h
  split at h
  · contradiction
  · split at h
    · cases h
      exact stands_found c (by decide) _
    · dsimp only at h
      split at h
      · cases h
        exact stands_found c (by decide) _
      · cases h
        exact stands_anomaly c _ _

theorem stands_number (c : Cursor) : Stands c (number c.line c) := by
  unfold number
  dsimp only
  split
  · exact stands_anomaly c _ _
  · exact stands_found c (by decide) _

theorem stands_parameter {c : Cursor} {s : Scanned} (h : parameter c.line c = .ok s) :
    Stands c s := by
  unfold parameter at h
  split at h
  · contradiction
  · repeat' split at h
    all_goals
      cases h
      exact stands_found c (by decide) _

theorem stands_operator {c : Cursor} {s : Scanned} (h : operator c.line c = .ok (some s)) :
    Stands c s := by
  unfold operator at h
  split at h
  · contradiction
  · cases h
    exact stands_found c (by decide) _
  · repeat' split at h
    all_goals
      cases h
      try exact stands_found c (by decide) _

end Scan

/-! ## Runs of letters -/

namespace Token

/-- A piece of a run of letters. -/
structure IsPiece (t : Token) : Prop where
  kind : t.kind ∈ TokenKind.ofLetters
  ne_nil : t.value ≠ []
  letters : ∀ c ∈ t.value, Scan.isWordChar c = true

theorem IsPiece.crisp {t : Token} (h : t.IsPiece) : t.value.Crisp :=
  Text.Crisp.ofLetters h.ne_nil h.letters

theorem IsPiece.kind_ne_endOfFile {t : Token} (h : t.IsPiece) : t.kind ≠ .endOfFile := by
  intro hk
  have hkind := h.kind
  simp [hk, TokenKind.ofLetters] at hkind

theorem kindOf_mem_ofLetters (word : Text) : Keyword.kindOf word ∈ TokenKind.ofLetters := by
  unfold Keyword.kindOf
  dsimp only
  repeat' split
  all_goals simp [TokenKind.ofLetters]

theorem isPiece_of_mem_segment {line : Int} {t : Text} (h : ∀ c ∈ t, Scan.isWordChar c = true)
    {token : Token} (hm : token ∈ segment line t) : token.IsPiece := by
  refine ⟨?_, value_ne_nil_of_mem_segment hm, fun c hc => h c ?_⟩
  · fun_induction segment line t with
    | case1 => exact absurd hm List.not_mem_nil
    | case2 c rest _ ih =>
      rcases List.mem_cons.mp hm with rfl | hm
      · exact List.mem_cons_self
      · exact ih (fun x hx => h x (by simp [hx])) hm
    | case3 c rest n _ ih =>
      rcases List.mem_cons.mp hm with rfl | hm
      · exact kindOf_mem_ofLetters _
      · exact ih (fun x hx => h x (List.mem_cons_of_mem _ (List.mem_of_mem_drop hx))) hm
  · rw [← flatMap_segment line t]
    exact List.mem_flatMap.mpr ⟨token, hm, hc⟩

/-- What refining makes of a token holds the text of the token. -/
theorem texts_refine (t : Token) (previous : Option TokenKind) :
    (t.refine previous).1.value ++ texts (t.refine previous).2.toList = t.value := by
  unfold refine
  split
  · simp
  · split <;> simp_all

/-- Refining leaves alone all but function names. -/
theorem refine_of_kind_ne {t : Token} (h : t.kind ≠ .function) (previous : Option TokenKind) :
    t.refine previous = (t, none) := by
  rw [refine, if_pos (by simp [h])]

/-- A function name that cannot begin a call gives up its first letter. -/
theorem refine_of_not {t : Token} {previous : Option TokenKind} (hk : t.kind = .function)
    (hp : previous.all TokenKind.precedesCall = false) :
    t.refine previous = (⟨.word, t.value.take 1, t.line⟩,
      if t.value.drop 1 = [] then none else some ⟨.function, t.value.drop 1, t.line⟩) := by
  rw [refine, if_neg (by simp [hk, hp])]
  rcases t.value with _ | ⟨c, _ | ⟨d, rest⟩⟩ <;> rfl

/-- Refining makes no end mark of anything else. -/
theorem kind_of_refine {t : Token} {previous : Option TokenKind}
    (h : (t.refine previous).1.kind = .endOfFile) : t.kind = .endOfFile := by
  by_cases hk : t.kind = .function
  · cases hp : previous.all TokenKind.precedesCall with
    | false =>
      rw [refine_of_not hk hp] at h
      cases h
    | true =>
      rw [refine, if_pos (by simp [hp])] at h
      exact h
  · rwa [refine_of_kind_ne hk] at h

theorem isPiece_refine {t : Token} (h : t.IsPiece) (previous : Option TokenKind) :
    (t.refine previous).1.IsPiece ∧ ∀ u ∈ (t.refine previous).2, u.IsPiece := by
  unfold refine
  split
  · exact ⟨h, by simp⟩
  · have hl := h.letters
    split
    case h_1 hv => exact absurd hv h.ne_nil
    case h_2 c hv =>
      rw [hv] at hl
      exact ⟨⟨List.mem_cons_self, by simp, hl⟩, by simp⟩
    case h_3 c d rest hv =>
      rw [hv] at hl
      refine ⟨⟨List.mem_cons_self, by simp, fun x hx => hl x (by simp_all)⟩, ?_⟩
      rintro u hu
      obtain rfl : _ = u := by simpa using hu
      exact ⟨List.mem_cons_of_mem _ List.mem_cons_self, by simp,
        fun x hx => hl x (List.mem_cons_of_mem _ hx)⟩

end Token

end Gcode
