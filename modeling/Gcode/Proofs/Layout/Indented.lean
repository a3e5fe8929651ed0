import Gcode.Proofs.Layout.Level
import Gcode.Proofs.Layout.Lines
import Gcode.Proofs.Parse.Rounds
import Gcode.Proofs.Token.Blank
import Gcode.Proofs.Token.Placed

/-!
# Indentation follows nesting

A formatted program has as many lines as its tree has line breaks, and one more. What stands
between two line breaks of the tree is a row of fragments; its line is indented as its first
fragment asks for, unless it is blank. This rests on what the parser makes of a program: no
fragment but stray text begins with a blank, and stray text does so only on a line of its own,
where compacting leaves nothing but blanks.

## Main definitions

* `Layout.Fills` — the text of fragments that are put on a page, each at its level.
* `Layout.Indented` — how a line is indented.

## Main statements

* `Layout.Places.fills` — what is put on a page has the text that its fragments and levels say.
* `Reading.Piece.begun` — a fragment that opens a statement begins with ink.
* `Layout.Fills.indented` — what fragments fill has a line for each row of them.
* `formatSource_indented` — every line of a formatted program is indented by its level.
-/

namespace Gcode

open Token (texts)

namespace Layout

/-! ## The text of a page -/

/-- What stands before a fragment: `start` says whether it begins a line. -/
def lead (width : Nat) (start : Bool) (level : Nat) (f : Fragment) : Text :=
  if f.opens = false then []
  else if start = false then [' ']
  else if f.isBlankText then []
  else List.replicate (width * level) ' '

/-- What is left of a text behind which fragments are put: `start` says whether a line begins
behind the text. -/
def kept (start : Bool) (text : Text) (fs : List (Nat × Fragment)) : Text :=
  if !start && fs.head?.any fun f => f.2.opens then Text.trimRight text else text

/-- The text of the fragments that are put one behind the other; `start` says whether the first of
them begins a line. -/
inductive Fills (width : Nat) : Bool → List (Nat × Fragment) → Text → Prop
  | nil (start : Bool) : Fills width start [] []
  | cons {start : Bool} {level : Nat} {f : Fragment} {fs : List (Nat × Fragment)} {text t : Text} :
    f.written = .ok text → Fills width f.isLineBreak fs t →
    Fills width start ((level, f) :: fs)
      (lead width start level f ++ (kept f.isLineBreak text fs ++ t))

variable {width : Nat}

/-- At the start of a line, a statement is indented by its level. -/
theorem text_beginStatement_eq {page : Page} (width level : Nat) (h : page.atLineStart = true) :
    (page.beginStatement width level).text = page.text ++ List.replicate (width * level) ' ' := by
  rw [Page.beginStatement, if_pos h]
  split
  case isTrue hl => simp [hl]
  case isFalse => exact Page.text_put _ _

/-- What is put on a page has the text that its fragments and levels say. The last piece on the
page, `text`, is trimmed if a statement is put behind it on its line. -/
theorem Places.fills {page last : Page} {fs : List (Nat × Fragment)}
    (h : Places width page fs last) (hends : ∀ f ∈ fs, f.2.Ends) {before text : Text}
    (htext : page.text = before ++ text)
    (hpieces : page.atLineStart = false → ∃ pieces, page.pieces = text :: pieces) :
    ∃ t, Fills width page.atLineStart fs t ∧
      last.text = before ++ (kept page.atLineStart text fs ++ t) := by
  have hput : ∀ (page : Page) {f : Fragment} {text : Text}, f.written = .ok text → f.Ends →
      (page.put text).atLineStart = f.isLineBreak := fun _ _ _ hw hf => hf _ hw
  induction h generalizing before text with
  | nil page => exact ⟨[], .nil _, by simp [kept, htext]⟩
  | @put page last level f fs text' hw ho _ ih =>
    obtain ⟨hf, hfs⟩ := List.forall_mem_cons.mp hends
    obtain ⟨t, ht, hlast⟩ := ih hfs (Page.text_put page text') fun _ => ⟨page.pieces, rfl⟩
    rw [hput page hw hf] at ht hlast
    refine ⟨_, .cons hw ht, ?_⟩
    have hlead : lead width page.atLineStart level f = [] := by
      rcases ho with ho | hs
      · simp [lead, ho]
      · obtain ⟨hblank, hstart⟩ := Bool.and_eq_true .. ▸ hs
        simp [lead, hblank, hstart]
    have hkept : kept page.atLineStart text ((level, f) :: fs) = text := by
      rcases ho with ho | hs
      · simp [kept, ho]
      · obtain ⟨-, hstart⟩ := Bool.and_eq_true .. ▸ hs
        simp [kept, hstart]
    rw [hlast, htext, hlead, hkept, List.nil_append, List.append_assoc]
  | @opened page last level f fs text' hw ho hs _ ih =>
    obtain ⟨hf, hfs⟩ := List.forall_mem_cons.mp hends
    obtain ⟨t, ht, hlast⟩ := ih hfs (Page.text_put _ text') fun _ => ⟨_, rfl⟩
    rw [hput _ hw hf] at ht hlast
    refine ⟨_, .cons hw ht, ?_⟩
    rw [hlast]
    cases hstart : page.atLineStart with
    | true =>
      have hblank : f.isBlankText = false := by simpa [Fragment.stays, hstart] using hs
      rw [text_beginStatement_eq width level hstart, htext]
      simp [lead, kept, ho, hblank]
    | false =>
      obtain ⟨pieces, hpieces⟩ := hpieces hstart
      rw [text_beginStatement_of_not width level hstart hpieces htext]
      simp [lead, kept, ho]

/-- The text of a page on which nothing was written before. -/
theorem Places.fills_blank {last : Page} {fs : List (Nat × Fragment)}
    (h : Places width .blank fs last) (hends : ∀ f ∈ fs, f.2.Ends) :
    Fills width true fs last.text := by
  have hblank : Page.blank.text = [] ++ [] := rfl
  obtain ⟨t, ht, hlast⟩ := h.fills hends hblank fun hstart => absurd hstart (by decide)
  rw [hlast]
  exact ht

end Layout

/-! ## The beginnings of fragments -/

namespace Reading

variable {cut : Prop}

/-- Tokens of a line of which the first is not stray text begin with ink. -/
theorem begun_texts {used rest : List Token} (hne : used ≠ []) (hline : OnLine used)
    (hs : Shaped (used ++ rest)) (hhead : ∀ t ∈ (used ++ rest).head?, t.kind ≠ .unknown) :
    (texts used).Begun := by
  obtain ⟨t, used, rfl⟩ := List.exists_cons_of_ne_nil hne
  exact (hs.head.begun (hhead t rfl) (hline t List.mem_cons_self)).append _

theorem begun_operator {t : Token} (h : Parse.isOperator t = true)
    (hs : Token.Shape t.kind t.value) : t.value.Begun := by
  simp only [Parse.isOperator, Bool.or_eq_true, decide_eq_true_eq] at h
  rcases h with (hk | hk) | hk <;> exact hs.begun (by rw [hk]; decide) (by rw [hk]; decide)

/-- An expression that takes tokens, of which the first is not stray text, begins with ink. -/
theorem Expression.begun {n : Node} {ahead rest : List Token}
    (h : Expression cut (some n) ahead rest) (hlt : rest.length < ahead.length)
    (hs : Shaped ahead) (hhead : ∀ t ∈ ahead.head?, t.kind ≠ .unknown) {text : Text}
    (hw : Layout.expression (some n) = .ok text) : text.Begun := by
  rw [Layout.expression, Style.text_eq_plainText?] at hw
  cases h with
  | number _ ht | parameter _ ht =>
    cases hw
    exact hs.head.begun (by rw [ht]; decide) (by rw [ht]; decide)
  | word ht | call ht =>
    obtain ⟨t, -, rfl⟩ := map_eq_ok.mp hw
    exact (hs.head.begun (by rw [ht]; decide) (by rw [ht]; decide)).append t
  | unary ht =>
    obtain ⟨t, -, rfl⟩ := map_eq_ok.mp hw
    exact (begun_operator ht hs.head).append t
  | closed | unclosed =>
    obtain ⟨t, -, rfl⟩ := map_eq_ok.mp hw
    exact ⟨'[', _, rfl, by decide⟩
  | @binary t _ _ _ _ _ ht hl _ =>
    obtain ⟨u, -, hw⟩ := bind_eq_ok.mp hw
    obtain ⟨v, -, rfl⟩ := map_eq_ok.mp hw
    have hoperator := (begun_operator ht (hs.of_suffix hl.suffix).head).solid_ne_nil
    refine Text.Begun.trim ?_
    simp only [Text.solid_append, ne_eq, List.append_eq_nil_iff, hoperator, and_false, false_and,
      not_false_eq_true]
  | cutOff line hcut hused hline hcount =>
    cases hw
    subst hused
    refine begun_texts ?_ hline hs hhead
    rintro rfl
    exact absurd hlt (Nat.lt_irrefl _)

theorem Command.begun {n : Node} {ahead rest : List Token} (h : Command cut n ahead rest)
    (hs : Shaped ahead) (hhead : ∀ t ∈ ahead.head?, t.kind ≠ .unknown) {text : Text}
    (hw : Layout.expression (some n) = .ok text) : text.Begun := by
  cases h with
  | comment _ hk =>
    rw [Layout.expression, Style.text_eq_plainText?] at hw
    cases hw
    exact hs.head.begun (by rw [hk]; decide) (by rw [hk]; decide)
  | expression h hlt => exact h.begun hlt hs hhead hw
  | stray _ hne hused hline _ =>
    rw [Layout.expression, Style.text_eq_plainText?] at hw
    cases hw
    subst hused
    exact begun_texts hne hline hs hhead

theorem Header.begun {n : Node} {ahead rest : List Token} (h : Header cut n ahead rest)
    (hs : Shaped ahead) {text : Text} (hw : Layout.header (some n) = .ok text) : text.Begun := by
  have hword : ∀ {t : Token} {ts : List Token}, Parse.isOWord t = true → Shaped (t :: ts) →
      t.value.Begun := by
    intro t ts ht hs
    have hk := Parse.isOWord_kind ht
    exact hs.head.begun (by rw [hk]; decide) (by rw [hk]; decide)
  cases h with
  | bare ht =>
    obtain ⟨label, -, hw⟩ := bind_eq_ok.mp hw
    cases hw
    exact ((hword ht hs).append _).append _
  | @keyed t u label condition _ _ _ ht =>
    obtain ⟨label, -, hw⟩ := bind_eq_ok.mp hw
    cases condition with
    | none =>
      cases hw
      exact ((hword ht hs).append _).append _
    | some condition =>
      obtain ⟨text, -, hw⟩ := bind_eq_ok.mp hw
      cases hw
      exact ((((hword ht hs).append _).append _).append _).append _

/-- A fragment that opens a statement begins with ink, unless it is stray text. -/
theorem Piece.begun {f : Fragment} {ahead rest : List Token} (h : Piece cut f ahead rest)
    (hs : Shaped ahead) (ho : f.opens = true) (hstray : ∀ t, f ≠ .stray t) {text : Text}
    (hw : f.written = .ok text) : text.Begun := by
  cases h with
  | lineBreak | tail => cases ho
  | stray => exact absurd rfl (hstray _)
  | comment _ hk =>
    cases hw
    exact hs.head.begun (by rw [hk]; decide) (by rw [hk]; decide)
  | assignment hk =>
    obtain ⟨value, -, rfl⟩ := map_eq_ok.mp hw
    have htarget := hs.head.begun (by rw [hk]; decide) (by rw [hk]; decide)
    exact ((htarget.append _).append _).trimRight
  | header h => exact h.begun hs hw
  | commands hne hhead h =>
    cases h with
    | nil => exact absurd rfl hne
    | cons hc _ =>
      obtain ⟨texts, htexts, rfl⟩ := map_eq_ok.mp hw
      obtain ⟨text, htext, htexts⟩ := bind_eq_ok.mp htexts
      obtain ⟨more, -, htexts⟩ := bind_eq_ok.mp htexts
      cases htexts
      have hbegun := hc.begun hs hhead htext
      cases more with
      | nil => exact hbegun
      | cons next more => exact (hbegun.append _).append _

end Reading

/-! ## Lines and rows -/

/-- A line break in front of a text ends an empty line, unless it is cut in two. -/
theorem lines_append_break {e : Text} (he : e ∈ ([['\r', '\n'], ['\r'], ['\n']] : List Text))
    {t : Text} (ht : ¬(e.getLast? = some '\r' ∧ t.head? = some '\n')) :
    lines (e ++ t) = ⟨[], e⟩ :: lines t := by
  simp only [List.mem_cons, List.not_mem_nil, or_false] at he
  rcases he with rfl | rfl | rfl
  · exact lines.eq_2 t
  · exact lines_cons_break rfl fun h => ht ⟨rfl, h.2⟩
  · exact lines_feed t

/-- A line that compacting leaves as it is begins with ink, unless it is blank. -/
theorem isBlank_of_compactContent {c : Char} {u : Text}
    (h : compactContent (c :: u) = c :: u) (hink : Text.isBlankOnly (c :: u) = false) :
    Text.isBlank c = false := by
  rw [compactContent_of_not hink, Region.compact_cons] at h
  split at h
  · exact absurd h (Region.compact_ne_cons _ c u)
  case isFalse hc => simpa using hc

namespace Reading

/-- Tokens of a compact program that end at its end: behind `front`, they begin with `ahead`. No
line break among them is cut in two. -/
structure Behind (front ahead : List Token) : Prop where
  lexed : Lexed (front ++ ahead)
  compact_eq : compact (texts (front ++ ahead)) = texts (front ++ ahead)
  value_mem : ∀ t ∈ front ++ ahead, t.kind = .endOfLine →
    t.value ∈ ([['\r', '\n'], ['\r'], ['\n']] : List Text)
  not_split : ∀ (before : List Token) (t u : Token) (behind : List Token),
    front ++ ahead = before ++ t :: u :: behind →
      ¬(t.value.getLast? = some '\r' ∧ u.value.head? = some '\n')

namespace Behind

variable {front used rest : List Token}

theorem next (h : Behind front (used ++ rest)) : Behind (front ++ used) rest := by
  have happend := List.append_assoc front used rest
  constructor
  · rw [happend]
    exact h.lexed
  · rw [happend]
    exact h.compact_eq
  · rw [happend]
    exact h.value_mem
  · rw [happend]
    exact h.not_split

theorem shaped {ahead : List Token} (h : Behind front ahead) : Shaped ahead :=
  fun t ht => h.lexed.shape t (List.mem_append_right front ht)

/-- Stray text at the start of a line begins with ink, unless it is blank. -/
theorem isBlank_stray (h : Behind front (used ++ rest))
    (hfront : ∀ u ∈ front.getLast?, u.kind = .endOfLine) (hline : OnLine used)
    (hend : AtLineEnd rest) {c : Char} {u : Text} (hused : texts used = c :: u)
    (hink : Text.isBlankOnly (texts used) = false) : Text.isBlank c = false := by
  have hcompact := h.lexed.compact_behind hfront h.compact_eq
  have hcontent := (h.lexed.of_suffix (List.suffix_append front _)).compactContent_line hline hend
    hcompact
  rw [hused] at hcontent hink
  exact isBlank_of_compactContent hcontent hink

end Behind

end Reading

namespace Layout

open Reading (Series Piece Joins Behind AtLineEnd)

/-- Unless the line is blank, a fragment that opens a statement begins its row, and the line begins
with exactly as many spaces as the level of the fragment asks for, followed by the first character
of the fragment, which is no blank. -/
def Indented (width : Nat) (row : List (Nat × Fragment)) (line : Line) : Prop :=
  Text.isBlankOnly line.content = false →
    ∃ level f more c text rest, row = (level, f) :: more ∧ f.opens = true ∧
      f.written = .ok (c :: text) ∧ Text.isBlank c = false ∧
      line.content = List.replicate (width * level) ' ' ++ c :: rest

theorem indented_of_isBlankOnly {width : Nat} (row : List (Nat × Fragment)) {line : Line}
    (h : Text.isBlankOnly line.content = true) : Indented width row line := by
  intro hink
  rw [h] at hink
  contradiction

/-- The rows of fragments: what stands between two line breaks. -/
def rows (fs : List (Nat × Fragment)) : List (List (Nat × Fragment)) :=
  fs.splitOnP fun f => f.2.isLineBreak

theorem isBlankOnly_lead (width : Nat) (start : Bool) (level : Nat) (f : Fragment) :
    Text.isBlankOnly (lead width start level f) = true := by
  unfold lead
  repeat' split
  all_goals first | rfl | exact Text.ink_eq_nil_iff.mp (Text.ink_replicate_space _)

variable {cut : Prop} {width : Nat}

/-- What stands at the end of a line is not trimmed. -/
theorem kept_of_atLineEnd {fs : List (Nat × Fragment)} {rest last : List Token}
    (hend : AtLineEnd rest) (h : Series (Piece cut) (fs.map Prod.snd) rest last)
    (start : Bool) (text : Text) : kept start text fs = text := by
  cases fs with
  | nil => simp [kept]
  | cons f fs =>
    cases h with
    | cons hf _ =>
      have hopens : f.2.opens = false := by
        by_contra ho
        exact hf.not_atLineEnd (Fragment.isLineBreak_of_opens (Bool.not_eq_false _ ▸ ho)) hend
      simp [kept, hopens]

/-- The first character of a fragment that opens a statement at the start of a line stays there. It
is no line break, and no blank unless the fragment is blank. -/
theorem exists_kept {f : Fragment} {fs : List (Nat × Fragment)} {front ahead rest last : List Token}
    (hf : Piece cut f ahead rest) (hfs : Series (Piece cut) (fs.map Prod.snd) rest last)
    (hbehind : Behind front ahead) (hfront : ∀ u ∈ front.getLast?, u.kind = .endOfLine)
    (ho : f.opens = true) {text : Text} (hw : f.written = .ok text) (start : Bool) :
    ∃ c u v, text = c :: u ∧ kept start text fs = c :: v ∧ Text.isBreak c = false ∧
      (f.isBlankText = false → Text.isBlank c = false) := by
  have hunbroken := hf.unbroken_written hbehind.shaped (Fragment.isLineBreak_of_opens ho) hw
  by_cases hstray : ∃ text, f = .stray text
  · obtain ⟨text, rfl⟩ := hstray
    cases hw
    cases hf with
    | @stray used _ _ hne hused hline hend =>
      subst hused
      obtain ⟨t, used, rfl⟩ := List.exists_cons_of_ne_nil hne
      obtain ⟨c, v, hv⟩ := List.exists_cons_of_ne_nil hbehind.shaped.head.ne_nil
      have htexts : texts (t :: used) = c :: (v ++ texts used) := by
        rw [Token.texts_cons, hv, List.cons_append]
      have hkept := kept_of_atLineEnd hend hfs start (texts (t :: used))
      exact ⟨c, _, _, htexts, hkept.trans htexts, hunbroken c (by simp [htexts]),
        fun hink => hbehind.isBlank_stray hfront hline hend htexts hink⟩
  · obtain ⟨c, u, rfl, hc⟩ := hf.begun hbehind.shaped ho (not_exists.mp hstray) hw
    have hkept : ∃ v, kept start (c :: u) fs = c :: v := by
      unfold kept
      split
      · exact ⟨_, Text.Begun.trimRight_eq hc u⟩
      · exact ⟨u, rfl⟩
    obtain ⟨v, hv⟩ := hkept
    exact ⟨c, u, v, rfl, hv, Text.isBreak_of_isSpace hc, fun _ => Text.isBlank_of_isSpace hc⟩

/-- What fragments fill from the start of a line begins with a line feed only if the tokens do. -/
theorem Fills.head?_eq_feed {fs : List (Nat × Fragment)} {t : Text} (h : Fills width true fs t)
    {front ahead last : List Token} (hpieces : Series (Piece cut) (fs.map Prod.snd) ahead last)
    (hbehind : Behind front ahead) (hfront : ∀ u ∈ front.getLast?, u.kind = .endOfLine)
    (hjoins : ∀ f ∈ fs.head?, f.2.isTail = false) (ht : t.head? = some '\n') :
    ∃ u ∈ ahead.head?, u.value.head? = some '\n' := by
  cases h with
  | nil => contradiction
  | @cons _ level f fs text t hw h =>
    cases hpieces with
    | @cons _ _ _ behind _ hf hfs =>
      cases hbreak : f.isLineBreak with
      | true =>
        cases hf with
        | @lineBreak u _ hk =>
          cases hw
          obtain ⟨c, v, hv⟩ := List.exists_cons_of_ne_nil hbehind.shaped.head.ne_nil
          refine ⟨u, rfl, ?_⟩
          simpa [lead, kept, Fragment.opens, Fragment.isLineBreak, hv] using ht
        | _ => cases hbreak
      | false =>
        have ho : f.opens = true := by
          have htail := hjoins (level, f) rfl
          simpa [Fragment.isTail_eq, hbreak] using htail
        obtain ⟨c, u, v, -, hkept, hc, -⟩ :=
          exists_kept hf hfs hbehind hfront ho hw f.isLineBreak
        have hlead := Text.unbroken_of_isBlankOnly (isBlankOnly_lead width true level f)
        rw [hkept, List.head?_append] at ht
        cases hfirst : (lead width true level f).head? with
        | some d =>
          obtain rfl : d = '\n' := by simpa [hfirst] using ht
          exact absurd (hlead _ (List.mem_of_head? hfirst)) (by decide)
        | none =>
          obtain rfl : c = '\n' := by simpa [hfirst] using ht
          contradiction

/-- The line that a fragment begins is indented as the fragment asks for. The fragment is blank only
if nothing follows on its line. -/
theorem indented_cons {level : Nat} {f : Fragment} {fs row : List (Nat × Fragment)}
    {front ahead rest last : List Token} (hf : Piece cut f ahead rest)
    (hfs : Series (Piece cut) (fs.map Prod.snd) rest last) (hbehind : Behind front ahead)
    (hfront : ∀ u ∈ front.getLast?, u.kind = .endOfLine) (ho : f.opens = true) {text : Text}
    (hw : f.written = .ok text) {more ending : Text} (hend : AtLineEnd rest → more = []) :
    Indented width ((level, f) :: row)
      ⟨lead width true level f ++ kept false text fs ++ more, ending⟩ := by
  cases hblank : f.isBlankText with
  | true =>
    refine indented_of_isBlankOnly _ ?_
    cases hf with
    | stray _ _ _ hrest =>
      cases hw
      rw [kept_of_atLineEnd hrest hfs, hend hrest, List.append_nil, Text.isBlankOnly_append,
        isBlankOnly_lead, Bool.true_and]
      exact hblank
    | _ => cases hblank
  | false =>
    obtain ⟨c, u, v, rfl, hkept, -, hc⟩ := exists_kept hf hfs hbehind hfront ho hw false
    refine fun _ => ⟨level, f, row, c, u, v ++ more, rfl, ho, hw, hc hblank, ?_⟩
    simp [lead, ho, hblank, hkept]

/-- What fragments fill has a line for each row of them. The first line is indented too if it is
not behind a part of its line, and empty if its tokens are at an end. -/
theorem Fills.indented {start : Bool} {fs : List (Nat × Fragment)} {t : Text}
    (h : Fills width start fs t) {g : Fragment} (hg : g.isLineBreak = start)
    {front ahead : List Token} (hpieces : Series (Piece cut) (fs.map Prod.snd) ahead [])
    (hbehind : Behind front ahead)
    (hfront : start = true → ∀ u ∈ front.getLast?, u.kind = .endOfLine)
    (hjoins : (g :: fs.map Prod.snd).IsChain Joins) :
    ∃ row more line lines', rows fs = row :: more ∧ lines t = line :: lines' ∧
      List.Forall₂ (Indented width) more lines' ∧ (start = true → Indented width row line) ∧
      (AtLineEnd ahead → line.content = []) := by
  induction h generalizing g front ahead with
  | nil start =>
    exact ⟨[], [], ⟨[], []⟩, [], rfl, rfl, .nil, fun _ => indented_of_isBlankOnly _ rfl,
      fun _ => rfl⟩
  | @cons start level f fs text t hw h ih =>
    cases hpieces with
    | @cons _ _ _ rest _ hf hfs =>
      have hrows : rows ((level, f) :: fs) =
          if f.isLineBreak then [] :: rows fs else (rows fs).modifyHead (List.cons (level, f)) := by
        exact List.splitOnP_cons_eq_if_modifyHead ..
      cases hbreak : f.isLineBreak with
      | true =>
        rw [hbreak] at hrows h ih
        cases hf with
        | @lineBreak u rest hk =>
          cases hw
          have hnext : Behind (front ++ [u]) rest := Behind.next hbehind
          have hlast : ∀ v ∈ (front ++ [u]).getLast?, v.kind = .endOfLine := by simp [hk]
          obtain ⟨row, more, line, lines', hrow, hlines, hall, hfirst, -⟩ :=
            ih rfl hfs hnext (fun _ => hlast) (List.isChain_cons_cons.mp hjoins).2
          have hvalue := hbehind.value_mem u (by simp) hk
          have htail : ∀ f ∈ fs.head?, f.2.isTail = false := by
            intro f hf
            obtain ⟨fs, rfl⟩ := List.head?_eq_some_iff.mp hf
            rw [List.map_cons, List.map_cons, List.isChain_cons_cons,
              List.isChain_cons_cons] at hjoins
            exact Bool.eq_false_iff.mpr fun htail => absurd (hjoins.2.1 htail) (by simp [hbreak])
          have hsplit : ¬(u.value.getLast? = some '\r' ∧ t.head? = some '\n') := by
            rintro ⟨hreturn, hfeed⟩
            obtain ⟨v, hv, hfeed⟩ := h.head?_eq_feed hfs hnext hlast htail hfeed
            obtain ⟨behind, rfl⟩ := List.head?_eq_some_iff.mp hv
            exact hbehind.not_split front u v behind rfl ⟨hreturn, hfeed⟩
          refine ⟨[], row :: more, ⟨[], u.value⟩, line :: lines', ?_, ?_, .cons (hfirst rfl) hall,
            fun _ => indented_of_isBlankOnly _ rfl, fun _ => rfl⟩
          · rw [hrows, if_pos rfl, hrow]
          · rw [← hlines, ← lines_append_break hvalue hsplit]
            rfl
        | _ => cases hbreak
      | false =>
        rw [hbreak] at hrows h ih
        have hshaped := hbehind.shaped
        obtain ⟨used, rfl, hline⟩ := hf.spans hbreak
        obtain ⟨row, more, line, lines', hrow, hlines, hall, -, hend⟩ :=
          ih hbreak hfs hbehind.next (fun h => by cases h) (List.isChain_cons_cons.mp hjoins).2
        have hunbroken : (lead width start level f ++ kept false text fs).Unbroken := by
          refine Text.unbroken_append.mpr
            ⟨Text.unbroken_of_isBlankOnly (isBlankOnly_lead width start level f), fun c hc => ?_⟩
          refine hf.unbroken_written hshaped hbreak hw c ?_
          unfold kept at hc
          split at hc
          · exact (Text.trimRight_isPrefix text).subset hc
          · exact hc
        refine ⟨(level, f) :: row, more,
          ⟨lead width start level f ++ kept false text fs ++ line.content, line.ending⟩, lines',
          ?_, ?_, hall, fun hstart => ?_, fun h => absurd h (hf.not_atLineEnd hbreak)⟩
        · rw [hrows, hrow]
          rfl
        · rw [← List.append_assoc, lines_append hunbroken, hlines]
          rfl
        · subst hstart
          have ho : f.opens = true := by
            rw [List.map_cons, List.isChain_cons_cons] at hjoins
            have htail : f.isTail = false :=
              Bool.eq_false_iff.mpr fun htail => absurd (hjoins.1 htail) (by simp [hg])
            simpa [Fragment.isTail_eq, hbreak] using htail
          exact indented_cons hf hfs hbehind (hfront rfl) ho hw hend

end Layout

/-! ## Whole programs -/

namespace Reading

variable {cut : Prop}

/-- What stands behind the header of a statement that was read is a line of commands. -/
theorem Statements.lined {nodes : List Node} {ahead rest : List Token}
    (h : Statements cut nodes ahead rest) : Node.LinedOf (nodes.map some) := by
  induction h with
  | nil => trivial
  | simple h _ ih =>
    refine ⟨?_, ih⟩
    cases h with
    | flat => exact ⟨_, rfl⟩
    | _ => trivial
  | block _ _ _ _ ihbody ih => exact ⟨ihbody, ih⟩

/-- Without a limit on rounds, a program is read to its end, statement by statement. -/
theorem Run.statements {source : Text} {maxDepth : Int} (run : Run source ⟨none, maxDepth⟩) :
    Statements True run.nodes run.tokens [] := by
  obtain ⟨nodes, reports, hsteps⟩ := Parse.exists_steps
    ((⟨none, maxDepth⟩ : Limits).setting run.tokens run.stop) run.lexed.kind_ne_endOfFile
  have hlength := hsteps.length_le
  have houtcome := run.outcome_eq
  rw [hsteps.outcome_eq (by simp [Limits.setting]; omega)] at houtcome
  obtain ⟨hnodes, -⟩ := Prod.mk.inj (Except.ok.inj houtcome)
  have hinj : ∀ a b : Node, some a = some b → a = b := fun _ _ => Option.some.inj
  rw [← (List.map_inj_right hinj).mp (Program.mk.inj hnodes)]
  exact hsteps.statements

/-- The tokens of a program are those of a compact program. -/
theorem Run.behind {source : Text} {limits : Limits} (run : Run source limits) :
    Behind [] run.tokens := by
  have hplaced : Placed 1 (run.tokens ++ [run.stop]) :=
    Lexer.run_placed (by simp [Lexer.Queued, Lexer.ofSource, Lexer.ofCursor])
      (by simp [Lexer.Level, Lexer.ofSource, Lexer.ofCursor]) run.run_eq
  refine ⟨run.lexed, ?_, fun t ht hk => ?_, ?_⟩
  · rw [List.nil_append, run.texts_eq, compact_compact]
  · obtain ⟨before, behind, htokens⟩ := List.append_of_mem ht
    rw [List.nil_append] at htokens
    rw [htokens, List.append_assoc] at hplaced
    exact hplaced.value_mem (run.lexed.shape t ht) hk
  · intro before t u behind htokens
    rw [List.nil_append] at htokens
    rw [htokens, List.append_assoc] at hplaced
    exact hplaced.not_split (run.lexed.shape t (by simp [htokens]))

end Reading

/-- Whatever the nesting that is allowed, a formatted program has a line for each row of the
fragments of its tree. A line that is not blank begins with as many spaces as the level of the
first fragment of its row asks for, and then with the first character of that fragment, which is
no blank. -/
theorem formatSource_indented (source : Text) (width maxDepth : Int) :
    ∃ result, formatSource source ⟨width, ⟨none, maxDepth⟩, "ngc"⟩ = .ok result ∧
      List.Forall₂ (Layout.Indented width.toNat)
        (Layout.rows (Node.leveledOf 0 false result.read.program.statements))
        (lines result.text) := by
  obtain ⟨run⟩ := Reading.nonempty_run source ⟨none, maxDepth⟩
  have hread := run.statements
  have hends := Reading.ends_pieces hread.pieces run.lexed.shape
  have hlevels : Reading.Levels fun _ => .ok 0 := fun _ _ _ => ⟨0, rfl⟩
  obtain ⟨page, hpage, -⟩ := hread.writes width.toNat hlevels .blank
  have hplaces := Layout.statements_places _ hread.lined Layout.levelsIn_outermost hpage
  have hfragments := Node.map_snd_leveledOf 0 false (run.nodes.map some)
  have hwritten : run.read.program.written width = .ok page.text := by
    rw [Program.written, Program.page]
    simp only [Reading.Run.read, hpage, Except.map]
  have hfills := hplaces.fills_blank fun f hf =>
    hends f.2 (hfragments ▸ List.mem_map_of_mem hf)
  obtain ⟨row, more, line, lines', hrows, hlines, hall, hfirst, -⟩ :=
    hfills.indented (g := .lineBreak []) rfl (by rw [hfragments]; exact hread.pieces) run.behind
      (by simp) (by rw [hfragments]; exact hread.joins)
  refine ⟨_, run.formatSource_eq hwritten, ?_⟩
  simp only [Reading.Run.read, hrows, hlines]
  exact .cons (hfirst rfl) hall

end Gcode
