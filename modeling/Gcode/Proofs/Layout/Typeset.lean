import Gcode.Proofs.Layout.Fragment
import Gcode.Proofs.Parse.Span
import Gcode.Proofs.Token.Laid

/-!
# The layout of statements

If no name ends in white space, trimming takes nothing but blanks that were put in, and these
stand in front of tokens that are to be seen: what is written for a statement holds its tokens,
laid out.

## Main definitions

* `Token.Tidy` — the tokens of a compact program in which no name ends in white space.
* `Reading.Sets` — tokens up to a rest that are laid out in a text.
* `Reading.Fronted` — tokens before which no blanks stand.

## Main statements

* `Reading.Expression.sets`, `Reading.sets_commands`, `Reading.Header.sets`,
  `Reading.sets_assignment` — how the parts of statements are laid out.
-/

namespace Gcode

open Token (texts Laid)
open Text (Tight)

/-! ## Tokens of a compact program -/

namespace Text

theorem Crisp.folded {t : Text} (h : t.Crisp) : (Text.folded t).Crisp := by
  refine ⟨?_, fun c hc => ?_⟩
  · rw [ne_eq, folded_eq_nil]
    exact h.1
  · obtain ⟨d, hd, rfl⟩ := List.mem_map.mp hc
    obtain ⟨hspace, hsemi, hparen⟩ := h.2 d hd
    rw [isSpace_toLower, ne_eq, toLower_eq_iff (by decide), ne_eq, toLower_eq_iff (by decide)]
    exact ⟨hspace, hsemi, hparen⟩

theorem Crisp.tight {t : Text} (h : t.Crisp) : t.Tight where
  begun c hc := (h.2 c (List.mem_of_head? hc)).1
  ended c hc := (h.2 c (List.mem_of_getLast? hc)).1

end Text

namespace Token

theorem Reads.tight {t : Token} {v : Text} (h : t.Reads v) (ht : t.value.Tight) : v.Tight := by
  cases h with
  | verbatim => exact ht
  | keyword _ hv _ => exact hv.tight

/-- The tokens of a compact program, in which no name ends in white space. -/
structure Tidy (ts : List Token) : Prop where
  lexed : Lexed ts
  apart : ts.IsChain Apart
  closed : ∀ t ∈ ts, t.kind = .parameter → t.value.Ended

namespace Tidy

variable {t : Token} {ts us : List Token}

theorem of_suffix (h : Tidy ts) (hs : us <:+ ts) : Tidy us where
  lexed := h.lexed.of_suffix hs
  apart := h.apart.suffix hs
  closed t ht := h.closed t (hs.subset ht)

theorem head (h : Tidy (t :: ts)) : Shape t.kind t.value := h.lexed.shape t List.mem_cons_self

theorem tail (h : Tidy (t :: ts)) : Tidy ts := h.of_suffix (List.suffix_cons t ts)

theorem tight (h : Tidy (t :: ts)) (hk : t.kind ∈ TokenKind.solid ∨ t.kind = .parameter) :
    t.value.Tight := by
  rcases hk with hk | hk
  · exact (h.head.crisp hk).tight
  · refine ⟨?_, h.closed t List.mem_cons_self hk⟩
    have hshape := h.head
    rw [hk] at hshape
    generalize t.value = v at hshape ⊢
    cases hshape with
    | letters hl => simp [TokenKind.ofLetters] at hl
    | sign hl => simp [TokenKind.ofSigns] at hl
    | parameter hc _ => simpa using hc

end Tidy

end Token

namespace Reading

/-! ## Expressions -/

/-- The tokens of `ahead` before `rest` are to be seen, and laid out in the text. -/
def Sets (ahead rest : List Token) (text : Text) : Prop :=
  ∃ used, ahead = used ++ rest ∧ (∀ t ∈ used, t.Visible) ∧ Laid used text

namespace Sets

variable {t : Token} {ahead behind rest : List Token} {s u : Text}

theorem refl (ahead : List Token) : Sets ahead ahead [] := ⟨[], rfl, by simp, .nil⟩

theorem single (ht : t.Visible) {v : Text} (hv : t.Reads v) (rest : List Token) :
    Sets (t :: rest) rest v := ⟨[t], rfl, by simpa using ht, .single hv⟩

theorem trans (h : Sets ahead behind s) (k : Sets behind rest u) : Sets ahead rest (s ++ u) := by
  obtain ⟨us, rfl, hus, hs⟩ := h
  obtain ⟨vs, rfl, hvs, hu⟩ := k
  refine ⟨us ++ vs, by rw [List.append_assoc], ?_, hs.append hu⟩
  intro t ht
  rcases List.mem_append.mp ht with ht | ht
  · exact hus t ht
  · exact hvs t ht

theorem cons (ht : t.Visible) (h : Sets ahead rest u) : Sets (t :: ahead) rest (t.value ++ u) :=
  (single ht .verbatim ahead).trans h

/-- A blank may stand in front of what has some text. -/
theorem spaced (h : Sets ahead rest u) (hne : u ≠ []) : Sets ahead rest (' ' :: u) := by
  obtain ⟨used, hused, hvis, hu⟩ := h
  refine ⟨used, hused, hvis, ?_⟩
  cases used with
  | nil =>
    cases hu
    exact absurd rfl hne
  | cons t used => exact Laid.blanks (b := [' ']) rfl (hvis t List.mem_cons_self) hu

end Sets

/-- What is laid out from some tokens is some text. -/
theorem Sets.ne_nil {ahead rest : List Token} {u : Text} (h : Sets ahead rest u)
    (hlt : rest.length < ahead.length) : u ≠ [] := by
  rintro rfl
  obtain ⟨used, rfl, hvis, hu⟩ := h
  rw [hu.eq_nil hvis] at hlt
  exact Nat.lt_irrefl _ hlt

theorem kind_mem_solid {t : Token} (h : Parse.isOperator t = true) :
    t.kind ∈ TokenKind.solid := by
  simp only [Parse.isOperator, Bool.or_eq_true, decide_eq_true_eq] at h
  rcases h with (h | h) | h <;> simp [h, TokenKind.solid]

/-- A token of an expression is tight, and to be seen. -/
theorem visible_of_solid {t : Token} (hs : Token.Shape t.kind t.value)
    (hk : t.kind ∈ TokenKind.solid ∨ t.kind = .parameter) : t.Visible := by
  refine Token.visible_of_kind hs ?_ ?_
  · rintro h
    rw [h] at hk
    simp [TokenKind.solid] at hk
  · rintro h
    rw [h] at hk
    simp [TokenKind.solid] at hk

/-- The text and a blank behind it, or nothing. -/
def spacedBehind (t : Text) : Text := if t = [] then [] else t ++ [' ']

/-- The text and a blank before it, or nothing. -/
def spacedBefore (t : Text) : Text := if t = [] then [] else ' ' :: t

/-- Of the blanks around an operator, those are left beside which there is an operand. -/
theorem link_eq {l operator r : Text} (hl : l.Tight) (ho : operator.Crisp) (hr : r.Tight) :
    Layout.style.link l operator r = spacedBehind l ++ operator ++ spacedBefore r ∧
      (spacedBehind l ++ operator ++ spacedBefore r).Tight := by
  have hleft : (spacedBehind l ++ operator).Tight := by
    rw [spacedBehind]
    split
    · exact ho.tight
    · exact hl.between ‹_› [' '] ho.tight ho.1
  have hne : spacedBehind l ++ operator ≠ [] := by simp [ho.1]
  have hwhole : (spacedBehind l ++ operator ++ spacedBefore r).Tight := by
    rw [spacedBefore]
    split
    · rwa [List.append_nil]
    · have key := hleft.between hne [' '] hr ‹_›
      rwa [List.append_assoc] at key
  refine ⟨?_, hwhole⟩
  have hblanks : l ++ " ".toList ++ operator ++ " ".toList ++ r =
      (if l = [] then [' '] else []) ++ (spacedBehind l ++ operator ++ spacedBefore r) ++
        (if r = [] then [' '] else []) := by
    by_cases hln : l = []
    · by_cases hrn : r = []
      · simp [hln, hrn, spacedBehind, spacedBefore]
      · simp [hln, hrn, spacedBehind, spacedBefore]
    · by_cases hrn : r = []
      · simp [hln, hrn, spacedBehind, spacedBefore]
      · simp [hln, hrn, spacedBehind, spacedBefore]
  have hlink : Layout.style.link l operator r =
      Text.trim (l ++ " ".toList ++ operator ++ " ".toList ++ r) := rfl
  rw [hlink, hblanks]
  refine Text.trim_blanks ?_ hwhole ?_
  · split <;> rfl
  · split <;> rfl

theorem Sets.behind {t : Token} {ahead rest : List Token} {l : Text} (ht : t.Visible)
    (h : Sets ahead (t :: rest) l) : Sets ahead rest (spacedBehind l ++ t.value) := by
  rw [spacedBehind]
  split
  case isTrue hl =>
    rw [hl] at h
    exact h.trans (.single ht .verbatim rest)
  case isFalse hl =>
    rw [List.append_assoc]
    exact h.trans ((Sets.single ht .verbatim rest).spaced ht.ne_nil)

theorem Sets.before {ahead rest : List Token} {r : Text} (h : Sets ahead rest r) :
    Sets ahead rest (spacedBefore r) := by
  rw [spacedBefore]
  split
  case isTrue hr =>
    rw [hr] at h
    exact h
  case isFalse hr => exact h.spaced hr

/-- An expression is laid out from its tokens, without white space at the ends. -/
theorem Expression.sets {n : Option Node} {ahead rest : List Token}
    (h : Expression False n ahead rest) (ht : Token.Tidy ahead) {text : Text}
    (hw : Layout.style.plainText? n = .ok text) : Sets ahead rest text ∧ text.Tight := by
  have atom : ∀ {t : Token} {ts : List Token}, Token.Tidy (t :: ts) →
      t.kind ∈ TokenKind.solid ∨ t.kind = .parameter → t.Visible ∧ t.value.Tight :=
    fun ht hk => ⟨visible_of_solid ht.head hk, ht.tight hk⟩
  have first : ∀ {t : Token} {ahead rest : List Token} {u : Text}, Token.Tidy (t :: ahead) →
      t.kind ∈ TokenKind.solid → Sets ahead rest u ∧ u.Tight →
      Sets (t :: ahead) rest (t.value ++ u) ∧ (t.value ++ u).Tight := by
    intro t ahead rest u ht hk hu
    obtain ⟨hvis, htight⟩ := atom ht (.inl hk)
    exact ⟨.cons hvis hu.1, htight.append hu.2⟩
  induction h generalizing text with
  | missing ahead =>
    cases hw
    exact ⟨.refl ahead, .nil⟩
  | number rest hk =>
    cases hw
    obtain ⟨hvis, htight⟩ := atom ht (.inl (by rw [hk]; decide))
    exact ⟨.single hvis .verbatim rest, htight⟩
  | parameter rest hk =>
    cases hw
    obtain ⟨hvis, htight⟩ := atom ht (.inr hk)
    exact ⟨.single hvis .verbatim rest, htight⟩
  | word hk _ ih | call hk _ ih =>
    obtain ⟨u, hu, rfl⟩ := map_eq_ok.mp hw
    exact first ht (by rw [hk]; decide) (ih ht.tail hu)
  | unary hk _ ih =>
    obtain ⟨u, hu, rfl⟩ := map_eq_ok.mp hw
    exact first ht (kind_mem_solid hk) (ih ht.tail hu)
  | @binary t left right ahead behind rest hk hl hr ihl ihr =>
    obtain ⟨l, hl', hw⟩ := bind_eq_ok.mp hw
    obtain ⟨r, hr', rfl⟩ := map_eq_ok.mp hw
    have hbehind := ht.of_suffix hl.suffix
    obtain ⟨hsetl, htightl⟩ := ihl ht hl'
    obtain ⟨hsetr, htightr⟩ := ihr hbehind.tail hr'
    obtain ⟨heq, htight⟩ := link_eq htightl (hbehind.head.crisp (kind_mem_solid hk)) htightr
    rw [heq]
    obtain ⟨hvis, -⟩ := atom hbehind (.inl (kind_mem_solid hk))
    exact ⟨(hsetl.behind hvis).trans hsetr.before, htight⟩
  | @closed t u inner ahead rest hk hk' hi ih =>
    obtain ⟨v, hv, rfl⟩ := map_eq_ok.mp hw
    have hbehind := ht.tail.of_suffix hi.suffix
    obtain ⟨hset, htight⟩ := ih ht.tail hv
    obtain ⟨hvis, hclose⟩ := atom hbehind (.inl (by rw [hk']; decide))
    have key := first ht (by rw [hk]; decide)
      ⟨hset.trans (.single hvis .verbatim rest), htight.append hclose⟩
    have hopen : t.value = "[" := Token.Shape.eq_openBracket (hk ▸ ht.head)
    have hclosed : u.value = "]" := Token.Shape.eq_closeBracket (hk' ▸ hbehind.head)
    rw [hopen, hclosed] at key
    simpa [Layout.style] using key
  | @unclosed t inner ahead rest hk _ _ ih =>
    obtain ⟨v, hv, rfl⟩ := map_eq_ok.mp hw
    have key := first ht (by rw [hk]; decide) (ih ht.tail hv)
    have hopen : t.value = "[" := Token.Shape.eq_openBracket (hk ▸ ht.head)
    rw [hopen] at key
    simpa [Layout.style] using key
  | cutOff _ hcut => exact hcut.elim

/-- An expression that is there takes a token. -/
theorem Expression.length_lt {n : Node} {ahead rest : List Token}
    (h : Expression False (some n) ahead rest) : rest.length < ahead.length := by
  cases h with
  | number | parameter => simp
  | word _ h | call _ h | unary _ h | unclosed _ _ h =>
    have hle := h.suffix.length_le
    rw [List.length_cons]
    omega
  | binary _ hl hr =>
    have hlel := hl.suffix.length_le
    have hler := hr.suffix.length_le
    rw [List.length_cons] at hlel
    omega
  | closed _ _ h =>
    have hle := h.suffix.length_le
    rw [List.length_cons] at hle ⊢
    omega
  | cutOff _ hcut => exact hcut.elim

/-! ## Commands -/

/-- No blanks stand in front. -/
def Fronted (ts : List Token) : Prop := ∀ t ∈ ts.head?, t.kind = .endOfLine ∨ t.Visible

/-- Behind tokens on a line, no blanks stand in front. -/
theorem fronted_of_tidy {used rest : List Token} (h : Token.Tidy (used ++ rest)) (hne : used ≠ [])
    (hline : OnLine used) : Fronted rest := by
  intro t ht
  obtain ⟨-, -, hseam⟩ := List.isChain_append.mp h.apart
  have hlast := List.getLast?_eq_some_getLast hne
  have hapart := hseam _ hlast t ht
  have hboth := hapart.resolve_left (hline _ (List.getLast_mem hne))
  exact hboth.imp_right And.right

theorem Sets.fronted {ahead rest : List Token} {u : Text} (h : Sets ahead rest u)
    (ht : Token.Tidy ahead) (hlt : rest.length < ahead.length) : Fronted rest := by
  obtain ⟨used, rfl, hvis, -⟩ := h
  refine fronted_of_tidy ht ?_ fun t ht => (hvis t ht).1
  rintro rfl
  exact Nat.lt_irrefl _ hlt

theorem fronted_of_kind {ahead : List Token} (h : Token.Tidy ahead)
    (hk : ∀ t ∈ ahead.head?, t.kind ≠ .unknown) : Fronted ahead := by
  intro t ht
  by_cases hline : t.kind = .endOfLine
  · exact .inl hline
  · exact .inr (Token.visible_of_kind (h.lexed.shape t (List.mem_of_mem_head? ht)) hline (hk t ht))

/-- Beside a token that is to be seen, all tokens of a line are. -/
theorem visible_of_fronted {used rest : List Token} (h : Token.Tidy (used ++ rest))
    (hf : Fronted (used ++ rest)) (hline : OnLine used) : ∀ t ∈ used, t.Visible := by
  induction used with
  | nil => simp
  | cons t used ih =>
    rw [List.forall_mem_cons]
    have htl := hline t List.mem_cons_self
    have hsingle : Token.Tidy ([t] ++ (used ++ rest)) := h
    have hfront := fronted_of_tidy hsingle (by simp) (by simpa [OnLine] using htl)
    refine ⟨(hf t rfl).resolve_left htl, ih h.tail hfront ?_⟩
    exact fun u hu => hline u (List.mem_cons_of_mem t hu)

/-- A comment that another token follows on its line is closed. -/
theorem ended_comment {t : Token} {rest : List Token} (h : Token.Tidy (t :: rest))
    (hk : t.kind = .comment) (hrest : ¬AtLineEnd rest) : t.value.Ended := by
  have hopen : ¬t.IsOpen := by
    intro hopen
    refine hrest fun u hu => ?_
    obtain ⟨us, rfl⟩ := List.head?_eq_some_iff.mp hu
    cases h.lexed with
    | cons _ hends hl => exact Token.kind_of_isOpen hends (hl.shape u List.mem_cons_self) hopen
  have hshape := h.head
  obtain ⟨kind, value, line⟩ := t
  obtain rfl : kind = .comment := hk
  dsimp only at hshape ⊢
  cases hshape with
  | letters hl => simp [TokenKind.ofLetters] at hl
  | sign hl => simp [TokenKind.ofSigns] at hl
  | lineComment => exact absurd (.inl ⟨rfl, rfl⟩) hopen
  | comment =>
    refine Text.ended_append (by simp) ?_
    simp only [Text.Ended, List.getLast?_singleton, Option.mem_def, Option.some.injEq]
    rintro c rfl
    decide

theorem Command.sets {n : Node} {ahead rest : List Token} (h : Command False n ahead rest)
    (ht : Token.Tidy ahead) (hf : Fronted ahead) {text : Text}
    (hw : Layout.expression (some n) = .ok text) :
    Sets ahead rest text ∧ (¬AtLineEnd rest → text.Ended) := by
  rw [Layout.expression, Style.text_eq_plainText?] at hw
  cases h with
  | comment rest hk =>
    cases hw
    have hvis := Token.visible_of_kind ht.head (by rw [hk]; decide) (by rw [hk]; decide)
    exact ⟨.single hvis .verbatim rest, ended_comment ht hk⟩
  | expression h =>
    obtain ⟨hset, htight⟩ := h.sets ht hw
    exact ⟨hset, fun _ => htight.ended⟩
  | @stray used _ _ line hne hused hline hend =>
    cases hw
    subst hused
    exact ⟨⟨used, rfl, visible_of_fronted ht hf hline, .verbatim used⟩, absurd hend⟩

/-- Commands are laid out from their tokens. -/
theorem sets_commands {nodes : List Node} {ahead rest : List Token}
    (h : Series (Command False) nodes ahead rest) (ht : Token.Tidy ahead) (hf : Fronted ahead)
    {texts : List Text} (hw : Layout.commandTexts (nodes.map some) = .ok texts) :
    Sets ahead rest (Text.joined " " texts) ∧
      (¬AtLineEnd rest → (Text.joined " " texts).Ended) := by
  induction h generalizing texts with
  | nil ahead =>
    cases hw
    exact ⟨.refl ahead, fun _ => Text.Tight.nil.ended⟩
  | @cons n nodes ahead behind rest hc hcs ih =>
    rw [List.map_cons, Layout.commandTexts] at hw
    obtain ⟨text, htext, hw⟩ := bind_eq_ok.mp hw
    obtain ⟨more, hmore, hw⟩ := bind_eq_ok.mp hw
    cases hw
    obtain ⟨hset, hended⟩ := hc.sets ht hf htext
    have hbehind := ht.of_suffix hc.suffix
    obtain ⟨hsets, hendeds⟩ := ih hbehind (hset.fronted ht hc.length_lt) hmore
    cases nodes with
    | nil =>
      cases hmore
      cases hcs
      exact ⟨hset, hended⟩
    | cons next nodes =>
      have hne := hsets.ne_nil (length_commands_lt hcs (by simp))
      have hjoined : Text.joined " " (text :: more) = text ++ ' ' :: Text.joined " " more := by
        cases more with
        | nil => exact absurd rfl hne
        | cons u more => simp [Text.joined]
      rw [hjoined]
      refine ⟨hset.trans (hsets.spaced hne), fun hend => ?_⟩
      have hlast := Text.ended_append (s := [' ']) hne (hendeds hend)
      exact Text.ended_append (by simp) hlast

/-! ## Headers and assignments -/

/-- A keyword is written in lower case. -/
theorem reads_keyword {t : Token} (hs : Token.Shape t.kind t.value) (hk : t.kind = .flow) :
    t.Reads (Text.lower (Text.upper t.value)) := by
  have hascii : t.value.Ascii := (hk ▸ hs : Token.Shape .flow t.value).ascii
  have hlower : Text.lower (Text.upper t.value) = Text.folded t.value := by
    rw [Text.lower_eq_folded hascii.upper, Text.folded_upper hascii]
  rw [hlower]
  exact .keyword hk (hs.crisp (by rw [hk]; decide)).folded (Text.folded_folded t.value)

/-- A header is laid out from its tokens, with nothing to trim at its end. -/
theorem Header.sets {n : Node} {ahead rest : List Token} (h : Header False n ahead rest)
    (ht : Token.Tidy ahead) {text : Text} (hw : Layout.header (some n) = .ok text) :
    Sets ahead rest text ∧ text.Ended := by
  have word : ∀ {t : Token} {label : Option Node} {ahead rest : List Token} {l : Text},
      Token.Tidy (t :: ahead) → Parse.isOWord t = true → Expression False label ahead rest →
      Layout.expression label = .ok l →
      Sets (t :: ahead) rest (t.value ++ l) ∧ (t.value ++ l).Tight := by
    intro t label ahead rest l ht ho hl hlabel
    rw [Layout.expression, Style.text_eq_plainText?] at hlabel
    have hk : t.kind ∈ TokenKind.solid := by rw [Parse.isOWord_kind ho]; decide
    obtain ⟨hset, htight⟩ := hl.sets ht.tail hlabel
    exact ⟨.cons (visible_of_solid ht.head (.inl hk)) hset, (ht.tight (.inl hk)).append htight⟩
  cases h with
  | @bare t label _ _ ho hl =>
    obtain ⟨l, hlabel, hw⟩ := bind_eq_ok.mp hw
    cases hw
    obtain ⟨hset, htight⟩ := word ht ho hl hlabel
    simpa using ⟨hset, htight.ended⟩
  | @keyed t u label condition _ _ _ ho hl hk hc =>
    obtain ⟨l, hlabel, hw⟩ := bind_eq_ok.mp hw
    obtain ⟨hset, -⟩ := word ht ho hl hlabel
    have hbehind := ht.tail.of_suffix hl.suffix
    have hreads := reads_keyword hbehind.head hk
    have hvis := visible_of_solid hbehind.head (.inl (by rw [hk]; decide))
    have hne : Text.lower (Text.upper u.value) ≠ [] := by
      intro hnil
      have hblank := hreads.isBlankOnly
      rw [hnil, hvis.2] at hblank
      contradiction
    have hkeyword : (Text.upper u.value).isEmpty = false := by
      cases hu : Text.upper u.value with
      | nil =>
        rw [hu] at hne
        exact absurd rfl hne
      | cons c v => rfl
    have hhead := hset.trans ((Sets.single hvis hreads _).spaced hne)
    have hended := (hreads.tight (hbehind.tight (.inl (by rw [hk]; decide)))).ended
    rw [hkeyword] at hw
    cases condition with
    | none =>
      cases hc
      cases hw
      exact ⟨hhead, Text.ended_append (by simp) (Text.ended_append (s := [' ']) hne hended)⟩
    | some condition =>
      obtain ⟨c, hcondition, hw⟩ := bind_eq_ok.mp hw
      cases hw
      rw [Layout.expression, Style.text_eq_plainText?] at hcondition
      obtain ⟨hsetc, htightc⟩ := hc.sets hbehind.tail hcondition
      have hnec := hsetc.ne_nil hc.length_lt
      have key := hhead.trans (hsetc.spaced hnec)
      refine ⟨?_, Text.ended_append hnec htightc.ended⟩
      simpa using key

/-- An assignment is laid out from its tokens, with nothing to trim at its end. -/
theorem sets_assignment {t u : Token} {value : Option Node} {ahead rest : List Token}
    (ht : Token.Tidy (t :: u :: ahead)) (hk : t.kind = .parameter) (hu : u.kind = .assign)
    (h : Expression False value ahead rest) {text : Text}
    (hw : Layout.expression value = .ok text) :
    Sets (t :: u :: ahead) rest (Text.trimRight (t.value ++ " = " ++ text)) ∧
      (Text.trimRight (t.value ++ " = " ++ text)).Ended := by
  rw [Layout.expression, Style.text_eq_plainText?] at hw
  obtain ⟨hset, htight⟩ := h.sets ht.tail.tail hw
  have hassign : u.value = ['='] := Token.Shape.eq_assign (hu ▸ ht.tail.head)
  have huvis := visible_of_solid ht.tail.head (.inl (by rw [hu]; decide))
  have hsign := Sets.single huvis .verbatim ahead
  rw [hassign] at hsign
  have htarget := Sets.single (visible_of_solid ht.head (.inr hk)) .verbatim (u :: ahead)
  have hleft := htarget.trans (hsign.spaced (by simp))
  have hended : (t.value ++ [' ', '='] ++ spacedBefore text).Ended := by
    rw [spacedBefore]
    split
    · rw [List.append_nil]
      refine Text.ended_append (by simp) ?_
      intro c hc
      obtain rfl : '=' = c := by simpa using hc
      decide
    · have hlast := Text.ended_append (s := [' ']) ‹_› htight.ended
      exact Text.ended_append (by simp) hlast
  have htrim : Text.trimRight (t.value ++ " = " ++ text) =
      t.value ++ [' ', '='] ++ spacedBefore text := by
    rw [spacedBefore] at hended ⊢
    split at hended
    case isTrue hnil =>
      have hblank := Text.trimRight_append_of_isBlankOnly (t.value ++ [' ', '=']) (u := [' ']) rfl
      rw [List.append_nil] at hended
      rw [Text.trimRight_of_ended hended] at hblank
      simpa [hnil] using hblank
    case isFalse hne =>
      have hkept := Text.trimRight_of_ended hended
      simpa [hne] using hkept
  rw [htrim]
  exact ⟨hleft.trans hset.before, hended⟩

end Reading

end Gcode
