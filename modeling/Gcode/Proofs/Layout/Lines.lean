import Gcode.Proofs.Layout.Ink
import Gcode.Proofs.Source.Lines

/-!
# Formatting line by line

Every line of a formatted program stands for the line of the same number in the source. Line
breaks are written as they are and nothing else breaks a line. A fragment has something in it that
no trimming takes away, unless it is stray text, which reaches to the end of its line and is not
trimmed. What a guard cut off is written as it is, from within a line on.

## Main definitions

* `Reading.Mirrors` — the text of a fragment against the text of its tokens.
* `KeepsBehind` — texts that keep lines wherever they may stand.

## Main statements

* `Reading.Piece.mirrors` — a fragment and its tokens break no line but where both do.
* `Layout.Lays.keepsBehind` — what is laid out from fragments keeps the lines of their tokens.
* `formatSource_keepsLines` — formatting keeps the lines of a program.
-/

namespace Gcode

open Token (texts)

/-! ## The beginnings of fragments -/

/-- A token other than a line break and stray text begins with ink. -/
theorem Token.Shape.begun {kind : TokenKind} {v : Text} (h : Shape kind v)
    (hunknown : kind ≠ .unknown) (hbreak : kind ≠ .endOfLine) : v.Begun := by
  have hcrisp : ∀ {u : Text}, u.Crisp → u.Begun := by
    intro u hu
    obtain ⟨c, v, rfl⟩ := List.exists_cons_of_ne_nil hu.1
    exact ⟨c, v, rfl, (hu.2 c List.mem_cons_self).1⟩
  cases h with
  | letters _ hne hv => exact hcrisp (.ofLetters hne hv)
  | sign _ hv => exact hcrisp hv
  | openBracket | closeBracket | assign | lineComment | comment =>
    exact ⟨_, _, rfl, by decide⟩
  | parameter hc _ => exact ⟨_, _, rfl, hc⟩
  | unclosed | blanks | stray => exact absurd rfl hunknown
  | lineBreak => exact absurd rfl hbreak

namespace Reading

variable {cut : Prop}

/-- A statement begins with a token that is no stray text, unless it is nothing else. -/
theorem Piece.head_kind {f : Fragment} {ahead rest : List Token} (h : Piece cut f ahead rest)
    (ho : f.opens = true) :
    (∃ text, f = .stray text) ∨ ∀ t ∈ ahead.head?, t.kind ≠ .unknown := by
  cases h with
  | lineBreak | tail => cases ho
  | comment rest hk => exact .inr (by simp [hk])
  | stray => exact .inl ⟨_, rfl⟩
  | assignment hk => exact .inr (by simp [hk])
  | header h =>
    cases h with
    | bare hword | keyed hword => exact .inr (by simp [Parse.isOWord_kind hword])
  | commands _ hhead _ => exact .inr hhead

/-- The text `p` in front of the tokens `rest` against the fragment that stands for it: the same
line breaks, the same stray text up to the end of a line, or texts within a line that have more
than white space in them. Commands behind a header are only known to be within a line. -/
inductive Mirrors : Fragment → Text → List Token → Prop
  | lineBreak {e : Text} (rest : List Token) : (∀ c ∈ e, Text.isBreak c = true) →
    Mirrors (.lineBreak e) e rest
  | stray {p : Text} {rest : List Token} : p.Unbroken → AtLineEnd rest →
    Mirrors (.stray p) p rest
  | solid {f : Fragment} {p text : Text} (rest : List Token) : f.isLineBreak = false →
    f.written = .ok text → p.Unbroken → text.Unbroken → p.solid ≠ [] → text.solid ≠ [] →
    Mirrors f p rest
  | tail {f : Fragment} {p text : Text} (rest : List Token) : f.isTail = true →
    f.written = .ok text → p.Unbroken → text.Unbroken → Mirrors f p rest

/-- A fragment and its tokens break no line but where both do. -/
theorem Piece.mirrors {f : Fragment} {ahead rest : List Token} (h : Piece cut f ahead rest)
    (hs : Shaped ahead) : ∃ p, texts ahead = p ++ texts rest ∧ Mirrors f p rest := by
  cases hf : f.isLineBreak with
  | true =>
    cases h with
    | @lineBreak t rest hk =>
      have hshape := hs.head
      rw [hk] at hshape
      exact ⟨t.value, rfl, .lineBreak rest hshape.isBreak⟩
    | _ => cases hf
  | false =>
    obtain ⟨used, rfl, hline, hunbroken, hfolded⟩ := h.spelled hs hf
    obtain ⟨text, hw⟩ := h.written_eq_ok
    have htext := h.unbroken_written hs hf hw
    refine ⟨texts used, Token.texts_append _ _, ?_⟩
    cases ho : f.opens with
    | false =>
      exact .tail rest (by rw [Fragment.isTail_eq, ho, hf]; rfl) hw hunbroken htext
    | true =>
      rcases h.head_kind ho with ⟨text, rfl⟩ | hhead
      · cases h with
        | stray _ hused _ hend =>
          rw [List.append_cancel_right hused]
          exact .stray (List.append_cancel_right hused ▸ hunbroken) hend
      · have hp : (texts used).solid ≠ [] := by
          cases used with
          | nil => exact absurd h.length_lt (Nat.lt_irrefl _)
          | cons t used =>
            have hsolid := (hs.head.begun (hhead t rfl) (hline t List.mem_cons_self)).solid_ne_nil
            rw [Token.texts_cons, Text.solid_append]
            exact fun hnil => hsolid (List.append_eq_nil_iff.mp hnil).1
        refine .solid rest hf hw hunbroken htext hp ?_
        rw [(Fragment.keeps_written hw).solid_eq, ne_eq, ← Text.folded_eq_nil, ← Text.solid_folded,
          ← hfolded, Text.solid_folded, Text.folded_eq_nil]
        exact hp

/-- Behind a line, the text of the tokens begins with a line break. -/
theorem isBreak_of_atLineEnd {ts : List Token} (h : AtLineEnd ts) (hs : Shaped ts) :
    ∀ c ∈ (texts ts).head?, Text.isBreak c = true := by
  cases ts with
  | nil => simp
  | cons t ts =>
    have hshape := hs.head
    rw [h t rfl] at hshape
    obtain ⟨c, v, hv⟩ := List.exists_cons_of_ne_nil hshape.ne_nil
    intro d hd
    rw [Token.texts_cons, hv, List.cons_append, List.head?_cons, Option.mem_some_iff] at hd
    exact hd ▸ hshape.isBreak c (by simp [hv])

end Reading

/-! ## Fragments on a page -/

/-- The texts keep lines behind beginnings of a line that have ink in them. They keep lines at the
start of a line too, unless they begin with what stands behind a header. -/
structure KeepsBehind (behindHeader : Bool) (s t : Text) : Prop where
  onLine : ∀ p q : Text, p.Unbroken → q.Unbroken → Text.isBlankOnly p = false →
    Text.isBlankOnly q = false → KeepsLines (p ++ s) (q ++ t)
  atStart : behindHeader = false → KeepsLines s t

theorem KeepsLines.keepsBehind {s t : Text} (h : KeepsLines s t) (behindHeader : Bool) :
    KeepsBehind behindHeader s t :=
  ⟨fun _ _ hp hq hp' hq' => h.append_ink hp hq hp' hq', fun _ => h⟩

namespace Reading

variable {cut : Prop}

/-- A fragment keeps lines in front of texts that do, also if it is trimmed because its line goes
on. -/
theorem Mirrors.keepsBehind {f : Fragment} {p text y u : Text} {rest : List Token} {b : Bool}
    (h : Mirrors f p rest) (hw : f.written = .ok text) (hs : Shaped rest)
    (hy : y = text ∨ f.isLineBreak = false ∧ ¬AtLineEnd rest ∧ y = Text.trimRight text ++ " ")
    (hb : f.isLineBreak = true ∨ AtLineEnd rest → b = false)
    (hu : KeepsBehind b (texts rest) u) : KeepsBehind f.isTail (p ++ texts rest) (y ++ u) := by
  have hsolid : y.solid = text.solid := by
    rcases hy with rfl | ⟨-, -, rfl⟩
    · rfl
    · rw [Text.solid_append, Text.solid_trimRight]
      exact List.append_nil _
  have hunbroken : text.Unbroken → y.Unbroken := by
    intro ht
    rcases hy with rfl | ⟨-, -, rfl⟩
    · exact ht
    · refine Text.unbroken_append.mpr ⟨fun c hc => ?_, by simp [Text.isBreak]⟩
      exact ht c ((Text.trimRight_isPrefix text).subset hc)
  cases h with
  | lineBreak rest he =>
    cases hw
    obtain rfl | ⟨hf, -⟩ := hy
    · exact ((hu.atStart (hb (.inl rfl))).append_breaks he).keepsBehind _
    · cases hf
  | stray hp hend =>
    cases hw
    obtain rfl | ⟨-, hopen, -⟩ := hy
    · refine KeepsLines.keepsBehind ?_ _
      exact (hu.atStart (hb (.inr hend))).append_line (isBreak_of_atLineEnd hend hs) hp hp
        (fun _ => rfl) id
    · exact absurd hend hopen
  | solid rest hf hw' hp ht hsp hst =>
    obtain rfl := Except.ok.inj (hw'.symm.trans hw)
    rw [← hsolid] at hst
    exact (hu.onLine p y hp (hunbroken ht) (Text.isBlankOnly_of_solid hsp)
      (Text.isBlankOnly_of_solid hst)).keepsBehind _
  | tail rest htail hw' hp ht =>
    obtain rfl := Except.ok.inj (hw'.symm.trans hw)
    refine ⟨fun p' q' hp' hq' hink hink' => ?_, fun hf => ?_⟩
    · rw [← List.append_assoc, ← List.append_assoc]
      exact hu.onLine _ _ (Text.unbroken_append.mpr ⟨hp', hp⟩)
        (Text.unbroken_append.mpr ⟨hq', hunbroken ht⟩)
        (by rw [Text.isBlankOnly_append, hink, Bool.false_and])
        (by rw [Text.isBlankOnly_append, hink', Bool.false_and])
    · rw [htail] at hf
      contradiction

/-- A statement that is not blank begins a line with ink. -/
theorem Mirrors.ink {f : Fragment} {p : Text} {rest : List Token} (h : Mirrors f p rest)
    (ho : f.opens = true) (hb : f.isBlankText = false) :
    p.Unbroken ∧ Text.isBlankOnly p = false := by
  cases h with
  | lineBreak => cases ho
  | stray hp => exact ⟨hp, hb⟩
  | solid _ _ _ hp _ hsolid => exact ⟨hp, Text.isBlankOnly_of_solid hsolid⟩
  | tail _ htail =>
    rw [Fragment.isTail_eq, ho] at htail
    contradiction

end Reading

open Reading in
/-- What is laid out from fragments keeps the lines of the tokens that they stand for. What is
behind the last line of them stays as it is. -/
theorem Layout.Lays.keepsBehind {cut : Prop} {gs : List Fragment} {t : Text}
    (h : Layout.Lays gs t) {f : Fragment} {fs : List Fragment} (hgs : gs = f :: fs) {p : Text}
    {rest last : List Token} (hf : Mirrors f p rest) (hpieces : Series (Piece cut) fs rest last)
    (hs : Shaped rest) (hjoins : (f :: fs).IsChain Joins) :
    KeepsBehind f.isTail (p ++ texts rest) (t ++ texts last) := by
  induction h generalizing f fs p rest with
  | single hw =>
    obtain ⟨rfl, rfl⟩ := List.cons.inj hgs
    cases hpieces
    exact hf.keepsBehind hw hs (.inl rfl) (fun _ => rfl) ((KeepsLines.refl _).keepsBehind false)
  | put hw _ _ ih =>
    obtain ⟨rfl, rfl⟩ := List.cons.inj hgs
    obtain ⟨hjoin, hjoins⟩ := List.isChain_cons_cons.mp hjoins
    cases hpieces with
    | cons hg hfs =>
      obtain ⟨p', htexts, hmirrors⟩ := hg.mirrors hs
      have hu := ih rfl hmirrors hfs (hs.of_suffix hg.suffix) hjoins
      rw [← htexts] at hu
      rw [List.append_assoc]
      refine hf.keepsBehind hw hs (.inl rfl) (fun hstart => ?_) hu
      rw [← Bool.not_eq_true]
      intro htail
      rcases hstart with hbreak | hend
      · rw [hjoin htail] at hbreak
        contradiction
      · refine hg.not_atLineEnd ?_ hend
        rw [Fragment.isTail_eq, Bool.and_eq_true] at htail
        simpa using htail.2
  | indented n hw hbreak ho hb _ ih =>
    obtain ⟨rfl, rfl⟩ := List.cons.inj hgs
    cases hpieces with
    | cons hg hfs =>
      obtain ⟨p', htexts, hmirrors⟩ := hg.mirrors hs
      have hu := ih rfl hmirrors hfs (hs.of_suffix hg.suffix) (List.isChain_cons_cons.mp hjoins).2
      obtain ⟨hp, hink⟩ := hmirrors.ink ho hb
      have hindented := (hu.atStart (by rw [Fragment.isTail_eq, ho]; rfl)).append_blanks hp hink
        (Text.ink_eq_nil_iff.mp (Text.ink_replicate_space n))
      rw [← htexts] at hindented
      rw [List.append_assoc, List.append_assoc]
      exact hf.keepsBehind hw hs (.inl rfl) (fun _ => rfl) (hindented.keepsBehind false)
  | spaced hw hbreak ho _ ih =>
    obtain ⟨rfl, rfl⟩ := List.cons.inj hgs
    cases hpieces with
    | cons hg hfs =>
      obtain ⟨p', htexts, hmirrors⟩ := hg.mirrors hs
      have hu := ih rfl hmirrors hfs (hs.of_suffix hg.suffix) (List.isChain_cons_cons.mp hjoins).2
      rw [← htexts] at hu
      have hopen := hg.not_atLineEnd (Fragment.isLineBreak_of_opens ho)
      have key := hf.keepsBehind hw hs (.inr ⟨hbreak, hopen, rfl⟩) (fun hstart => ?_) hu
      · simpa using key
      · rcases hstart with hbreak' | hend
        · rw [hbreak] at hbreak'
          contradiction
        · exact absurd hend hopen

/-! ## Whole programs -/

/-- At the level of the program, stray text is put where the statement begins, blank or not. -/
theorem Layout.statement_unknown (width : Nat) (page : Page) (text : Text) (line : Int) :
    statement width 0 page (.unknown text line) =
      .ok ((page.beginStatement width 0).put text) := by
  rw [statement]
  by_cases hs : (Text.isBlankOnly text && page.atLineStart) = true
  · rw [if_pos hs]
    rw [Bool.and_eq_true] at hs
    rw [Page.beginStatement, if_pos hs.2, if_pos rfl]
  · rw [if_neg hs]
    rfl

namespace Reading

variable {cut : Prop}

/-- The page of a program is laid out from fragments up to the end of the line on which a guard
cut the program off. The text of the tokens behind that line is on the page as it is. -/
theorem Program.exists_lays (width : Int) {nodes : List Node} {ts : List Token}
    (h : Program cut nodes ts) (hs : Shaped ts) :
    ∃ fs last t, Series (Piece cut) fs ts last ∧
      (.lineBreak [] :: fs).IsChain Joins ∧ Layout.Lays (.lineBreak [] :: fs) t ∧
      (⟨nodes.map some⟩ : Gcode.Program).written width = .ok (t ++ texts last) := by
  have hlevel : Levels fun _ => .ok 0 := fun _ _ _ => ⟨0, rfl⟩
  cases h with
  | whole h =>
    obtain ⟨page, hpage, hwrites⟩ := h.writes width.toNat hlevel .blank
    have hends := ends_pieces h.pieces hs
    refine ⟨_, [], page.text, h.pieces, h.joins,
      hwrites.lays_blank fun f hf => hends f (List.dropLast_subset _ hf), ?_⟩
    rw [Program.written, Program.page]
    simp only [hpage, Except.map, Token.texts_nil, List.append_nil]
  | @cutOff nodes _ rest line _ hopen h =>
    obtain ⟨middle, hmiddle, hfirst⟩ := h.writes width.toNat hlevel .blank
    obtain ⟨⟨used, hused, -, hline⟩, hend⟩ := Parse.restOfLine_takes rest
    generalize (Parse.restOfLine rest).rest = last at hused hend
    subst hused
    have hne : used ≠ [] := by
      rintro rfl
      exact hopen hend
    have hpieces : Series (Piece cut) (Node.fragmentsOf (nodes.map some) ++ [.stray (texts used)])
        ts last := h.pieces.append (.single (.stray hne rfl hline hend))
    have hjoins : (.lineBreak [] :: (Node.fragmentsOf (nodes.map some) ++
        [.stray (texts used)])).IsChain Joins :=
      joins_append h.joins (by simp [Joins, Fragment.isTail])
    obtain ⟨page, hpage, hstray⟩ := stray_writes width.toNat (texts used) line 0 middle
    obtain rfl := Except.ok.inj ((Layout.statement_unknown _ _ _ _).symm.trans hpage)
    have hends := ends_pieces hpieces hs
    refine ⟨_, last, _, hpieces, hjoins, (hfirst.append hstray).lays_blank fun f hf =>
      hends f (List.dropLast_subset _ hf), ?_⟩
    rw [Program.written, Program.page, List.map_append, statements_append width.toNat hmiddle]
    simp only [List.map_cons, List.map_nil, Layout.statements, Layout.statement?, bind,
      Except.bind, Layout.statement_unknown, Except.map, Layout.Page.text_put, Token.texts_append,
      List.append_assoc]

end Reading

/-- A formatted program keeps the lines of its source: the line breaks are the same, a line of
nothing but blanks is the same, and any other line is no line of blanks. -/
theorem formatSource_keepsLines (source : Text) (width : Int) (limits : Limits) :
    ∃ result, formatSource source ⟨width, limits, "ngc"⟩ = .ok result ∧
      List.Forall₂ Line.Kept (lines source) (lines result.text) := by
  obtain ⟨run⟩ := Reading.nonempty_run source limits
  obtain ⟨fs, last, t, hpieces, hjoins, hlays, hwritten⟩ :=
    run.reads.exists_lays width run.lexed.shape
  refine ⟨_, run.formatSource_eq hwritten, ?_⟩
  have hstart : Reading.Mirrors (.lineBreak []) [] run.tokens := .lineBreak _ (by simp)
  have hkept := (hlays.keepsBehind rfl hstart hpieces run.lexed.shape hjoins).atStart rfl
  rw [List.nil_append, run.texts_eq] at hkept
  exact (keepsLines_compact source).trans hkept

end Gcode
