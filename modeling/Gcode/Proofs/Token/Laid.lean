import Gcode.Proofs.Text.Folded
import Gcode.Proofs.Token.Lexed
import Mathlib.Data.List.Chain

/-!
# Tokens that are laid out

A text that holds the tokens of a program, with blanks before some of them, is compacted as the
tokens without the blanks are: compacting knows where a comment begins as well as the lexer does,
unless a name holds a character that begins one. Blanks may not be put into lines that are blank,
since such lines are kept.

## Main definitions

* `Token.Reads` — a text that is a token, up to the case of a keyword.
* `Token.Laid` — tokens in a text with blanks before some of them.
* `Token.Apart` — neighbours that are not a blank and something else on one line.

## Main statements

* `Lexed.apart` — in a compact program, blanks fill their line.
* `Token.Laid.folded_compact` — the blanks between tokens are taken out by compacting.
-/

namespace Gcode

namespace Token

/-- No comment begins in the token if it is a name. -/
def Unmarked (t : Token) : Prop := t.kind = .parameter → ';' ∉ t.value ∧ '(' ∉ t.value

/-- The token is to be seen on its line: it is no line break, and no blanks. -/
def Visible (t : Token) : Prop := t.kind ≠ .endOfLine ∧ Text.isBlankOnly t.value = false

/-- One of the tokens ends a line, or both are to be seen. -/
def Apart (t u : Token) : Prop :=
  t.kind = .endOfLine ∨ u.kind = .endOfLine ∨ t.Visible ∧ u.Visible

/-- The text is that of the token, up to the case of a keyword. -/
inductive Reads (t : Token) : Text → Prop
  | verbatim : Reads t t.value
  | keyword {v : Text} : t.kind = .flow → v.Crisp → Text.folded v = Text.folded t.value → Reads t v

/-- The text holds the tokens in order, with blanks in front of some that are to be seen. -/
inductive Laid : List Token → Text → Prop
  | nil : Laid [] []
  | cons {t : Token} {ts : List Token} {b v u : Text} : Text.isBlankOnly b = true →
    b = [] ∨ t.Visible → t.Reads v → Laid ts u → Laid (t :: ts) (b ++ (v ++ u))

theorem Visible.ne_nil {t : Token} (h : t.Visible) : t.value ≠ [] := by
  intro hnil
  have hvalue := h.2
  rw [hnil] at hvalue
  contradiction

theorem Reads.isBlankOnly {t : Token} {v : Text} (h : t.Reads v) :
    Text.isBlankOnly v = Text.isBlankOnly t.value := by
  cases h with
  | verbatim => rfl
  | keyword _ _ heq => rw [← Text.isBlankOnly_folded, heq, Text.isBlankOnly_folded]

namespace Laid

variable {ts us : List Token} {s u : Text}

theorem append (h : Laid ts s) (k : Laid us u) : Laid (ts ++ us) (s ++ u) := by
  induction h with
  | nil => exact k
  | cons hb hv hr _ ih =>
    rw [List.append_assoc, List.append_assoc]
    exact .cons hb hv hr ih

theorem single {t : Token} {v : Text} (h : t.Reads v) : Laid [t] v := by
  have key := Laid.cons (b := []) rfl (.inl rfl) h .nil
  rwa [List.append_nil] at key

theorem verbatim (ts : List Token) : Laid ts (texts ts) := by
  induction ts with
  | nil => exact .nil
  | cons t ts ih => exact .cons (b := []) rfl (.inl rfl) .verbatim ih

/-- More blanks may stand in front of a token that is to be seen. -/
theorem blanks {t : Token} {b : Text} (hb : Text.isBlankOnly b = true) (ht : t.Visible)
    (h : Laid (t :: ts) s) : Laid (t :: ts) (b ++ s) := by
  cases h with
  | @cons _ _ b' v u hb' _ hr hu =>
    rw [← List.append_assoc]
    refine .cons ?_ (.inr ht) hr hu
    rw [Text.isBlankOnly_append, Bool.and_eq_true]
    exact ⟨hb, hb'⟩

end Laid

/-- A token that is to be seen leaves text. -/
theorem Laid.eq_nil {ts : List Token} (h : Laid ts []) (hv : ∀ t ∈ ts, t.Visible) : ts = [] := by
  generalize htext : ([] : Text) = text at h
  cases h with
  | nil => rfl
  | @cons t _ b v u _ _ hr _ =>
    have hvisible := (hv t List.mem_cons_self).2
    obtain ⟨-, hvu⟩ := List.append_eq_nil_iff.mp htext.symm
    rw [← hr.isBlankOnly, (List.append_eq_nil_iff.mp hvu).1] at hvisible
    contradiction

/-! ## The tokens of a compact program -/

/-- Line breaks and stray text apart, all tokens are to be seen. -/
theorem visible_of_kind {t : Token} (hs : Shape t.kind t.value) (hline : t.kind ≠ .endOfLine)
    (hstray : t.kind ≠ .unknown) : t.Visible := by
  refine ⟨hline, ?_⟩
  obtain ⟨kind, value, line⟩ := t
  dsimp only at hs hline hstray ⊢
  cases hs with
  | letters _ hne hv => exact (Text.Crisp.ofLetters hne hv).isBlankOnly
  | sign _ hv => exact hv.isBlankOnly
  | openBracket | closeBracket | assign => rfl
  | parameter hc _ => rw [Text.isBlankOnly_cons, Text.isBlank_of_isSpace hc, Bool.false_and]
  | lineComment | comment => rfl
  | unclosed | blanks | stray => exact absurd rfl hstray
  | lineBreak => exact absurd rfl hline

theorem unbroken_of_reads {t : Token} (hs : Shape t.kind t.value) (hk : t.kind ≠ .endOfLine)
    {v : Text} (h : t.Reads v) : v.Unbroken := by
  cases h with
  | verbatim => exact hs.unbroken hk
  | keyword _ hv _ => exact hv.unbroken

/-- The text of a token leads back to code, unless the token is open. -/
theorem balanced_or_isOpen {t : Token} (hs : Shape t.kind t.value) (hm : t.Unmarked) :
    t.value.Balanced ∨ t.IsOpen := by
  obtain ⟨kind, value, line⟩ := t
  dsimp only at hs
  cases hs with
  | letters _ hne hv => exact .inl (Text.Crisp.ofLetters hne hv).balanced
  | sign _ hv => exact .inl hv.balanced
  | openBracket | closeBracket | assign => exact .inl (Text.balanced_of_forall (by simp))
  | parameter =>
    obtain ⟨hsemi, hparen⟩ := hm rfl
    refine .inl (Text.balanced_of_forall fun x hx => ⟨?_, ?_⟩)
    · rintro rfl
      exact hsemi hx
    · rintro rfl
      exact hparen hx
  | lineComment => exact .inr (.inl ⟨rfl, rfl⟩)
  | comment _ hv => exact .inl (Text.balanced_comment hv)
  | unclosed => exact .inr (.inr ⟨rfl, rfl⟩)
  | blanks _ hv => exact .inl (Text.balanced_of_isBlankOnly hv)
  | stray _ _ hsemi hparen => exact .inl (Text.balanced_of_forall (by simp [hsemi, hparen]))
  | lineBreak _ hv =>
    refine .inl (Text.balanced_of_forall fun c hc => ?_)
    have hc := hv c hc
    simp only [Text.isBreak, Bool.or_eq_true, decide_eq_true_eq] at hc
    rcases hc with rfl | rfl <;> decide

/-- Behind an open token its line ends. -/
theorem kind_of_isOpen {t u : Token} {us : List Token} (ht : t.Ends (texts (u :: us)))
    (hu : Shape u.kind u.value) (h : t.IsOpen) : u.kind = .endOfLine := by
  by_contra hk
  have hne := hu.ne_nil
  obtain ⟨c, v, hv⟩ := List.exists_cons_of_ne_nil hne
  have hc : Text.isBreak c = true := ht.ofOpen h c (by simp [hv])
  have hunbroken := hu.unbroken hk c (by simp [hv])
  rw [hc] at hunbroken
  contradiction

/-- Behind blanks something is to be seen, or their line ends. -/
theorem isBlankOnly_of_blanks {t u : Token} {us : List Token} (ht : t.Ends (texts (u :: us)))
    (hu : Shape u.kind u.value) (h : Text.isBlankOnly t.value = true) :
    Text.isBlankOnly u.value = false := by
  obtain ⟨c, v, hv⟩ := List.exists_cons_of_ne_nil hu.ne_nil
  have hc : Text.isBlank c = false := ht.ofBlanks h c (by simp [hv])
  rw [hv, Text.isBlankOnly_cons, hc, Bool.false_and]

end Token

/-- Neighbours on a line of a compact program are both to be seen. -/
theorem Token.apart_of_compact {t u : Token} {us : List Token} (ht : Shape t.kind t.value)
    (hm : t.Unmarked) (hends : t.Ends (texts (u :: us))) (hu : Shape u.kind u.value) {q : Text}
    (hq : q.Unbroken) (hb : q.Balanced)
    (hc : compact (q ++ (t.value ++ texts (u :: us))) = q ++ (t.value ++ texts (u :: us))) :
    t.Apart u := by
  by_cases htk : t.kind = .endOfLine
  · exact .inl htk
  by_cases huk : u.kind = .endOfLine
  · exact .inr (.inl huk)
  have htv : Text.isBlankOnly t.value = false := by
    by_contra hblank
    rw [Bool.not_eq_false] at hblank
    have huv := isBlankOnly_of_blanks hends hu hblank
    refine compact_ne_of_blanks hq hb hblank ht.ne_nil (hu.unbroken huk) ?_ (texts us) hc
    rw [Text.isBlankOnly_append, huv, Bool.and_false]
  have huv : Text.isBlankOnly u.value = false := by
    by_contra hblank
    rw [Bool.not_eq_false] at hblank
    have htb : t.value.Balanced :=
      (balanced_or_isOpen ht hm).resolve_right fun hopen => huk (kind_of_isOpen hends hu hopen)
    have hqt : (q ++ t.value).Unbroken := Text.unbroken_append.mpr ⟨hq, ht.unbroken htk⟩
    rw [← List.append_assoc] at hc
    refine compact_ne_of_blanks hqt (hb.append htb) hblank hu.ne_nil Text.unbroken_nil ?_
      (texts us) hc
    rw [List.append_nil, Text.isBlankOnly_append, htv, Bool.and_false]
  exact .inr (.inr ⟨⟨htk, htv⟩, huk, huv⟩)

/-- In a compact program, blanks fill their line. -/
theorem Lexed.apart {ts : List Token} (h : Lexed ts) (hm : ∀ t ∈ ts, t.Unmarked) {q : Text}
    (hq : q.Unbroken) (hb : q.Balanced)
    (hc : compact (q ++ Token.texts ts) = q ++ Token.texts ts) : ts.IsChain Token.Apart := by
  induction h generalizing q with
  | nil => exact .nil
  | @cons t ts hshape hends hlexed ih =>
    obtain ⟨ht, hm⟩ := List.forall_mem_cons.mp hm
    rw [Token.texts_cons] at hc
    have hchain : ts.IsChain Token.Apart := by
      by_cases hk : t.kind = .endOfLine
      · rw [hk] at hshape
        obtain ⟨c, v, hv⟩ := List.exists_cons_of_ne_nil hshape.ne_nil
        have hrest := (compact_eq_of_append hq (by simp [hv, hshape.isBreak c]) hc).2
        rw [compact_breaks hshape.ne_nil hshape.isBreak] at hrest
        exact ih hm Text.unbroken_nil Text.balanced_nil (List.append_cancel_left hrest)
      have hqt : (q ++ t.value).Unbroken := Text.unbroken_append.mpr ⟨hq, hshape.unbroken hk⟩
      rw [← List.append_assoc] at hc
      rcases Token.balanced_or_isOpen hshape ht with hbalanced | hopen
      · exact ih hm hqt (hb.append hbalanced) hc
      · have hrest := (compact_eq_of_append hqt (hends.ofOpen hopen) hc).2
        exact ih hm Text.unbroken_nil Text.balanced_nil hrest
    cases ts with
    | nil => exact .singleton t
    | cons u us =>
      have hu := hlexed.shape u List.mem_cons_self
      exact .cons_cons (Token.apart_of_compact hshape ht hends hu hq hb hc) hchain

/-! ## Taking the blanks out -/

namespace Token

theorem Reads.folded_compactContent {t : Token} (hs : Shape t.kind t.value) {v : Text}
    (h : t.Reads v) : Text.folded (compactContent v) = Text.folded (compactContent t.value) := by
  have crisp : ∀ u : Text, u.Crisp → compactContent u = u := by
    intro u hu
    exact compactContent_of_forall fun c hc => Text.isBlank_of_isSpace (hu.2 c hc).1
  cases h with
  | verbatim => rfl
  | keyword hk hv heq =>
    have hcrisp := hs.crisp (by rw [hk]; decide)
    rw [crisp v hv, crisp t.value hcrisp, heq]

theorem Reads.balanced {t : Token} {v : Text} (h : t.Reads v) (ht : t.value.Balanced) :
    v.Balanced := by
  cases h with
  | verbatim => exact ht
  | keyword _ hv _ => exact hv.balanced

/-- Before a line break, nothing is compacted but the line. -/
theorem Laid.compact_append {ts : List Token} {u : Text} (h : Laid ts u)
    (hend : ∀ t ∈ ts.head?, t.kind = .endOfLine ∧ Shape t.kind t.value) {p : Text}
    (hp : p.Unbroken) : compact (p ++ u) = compactContent p ++ compact u := by
  refine Gcode.compact_append hp ?_
  cases h with
  | nil => simp
  | @cons t _ b v u hb hvis hr _ =>
    obtain ⟨hk, hs⟩ := hend t rfl
    obtain rfl : b = [] := hvis.resolve_right fun hvis => hvis.1 hk
    cases hr with
    | verbatim =>
      rw [hk] at hs
      obtain ⟨c, w, hw⟩ := List.exists_cons_of_ne_nil hs.ne_nil
      simp [hw, hs.isBreak c]
    | keyword hflow =>
      rw [hk] at hflow
      cases hflow

/-- A token behind the beginning of a line, with blanks in front of it, is compacted on its own. -/
theorem Reads.folded_compactContent_append {t : Token} (hs : Shape t.kind t.value) {p b v : Text}
    (hb : p.Balanced) (hstart : p = [] ∨ Text.isBlankOnly p = false ∧ t.Visible)
    (hblank : Text.isBlankOnly b = true) (hvis : b = [] ∨ t.Visible) (h : t.Reads v) :
    Text.folded (compactContent (p ++ (b ++ v))) =
      Text.folded (Region.compact .code p ++ compactContent t.value) := by
  rw [Text.folded_append, ← h.folded_compactContent hs, ← Text.folded_append]
  by_cases htv : t.Visible
  · have hv : Text.isBlankOnly v = false := h.isBlankOnly.trans htv.2
    have hpbv : Text.isBlankOnly (p ++ (b ++ v)) = false := by
      simp [Text.isBlankOnly_append, hv]
    rw [compactContent_of_not hpbv, compactContent_of_not hv, hb,
      Region.compact_append_of_isBlankOnly hblank]
  · obtain rfl : p = [] := hstart.resolve_right fun hp => htv hp.2
    obtain rfl : b = [] := hvis.resolve_right htv
    rfl

/-- The blanks that were put between tokens are taken out by compacting, on the line that begins
with `p` and behind it. -/
theorem Laid.folded_compact_append {ts : List Token} {u : Text} (h : Laid ts u) (hl : Lexed ts)
    (hm : ∀ t ∈ ts, t.Unmarked) (hapart : ts.IsChain Apart) {p : Text} (hp : p.Unbroken)
    (hb : p.Balanced) (hstart : p = [] ∨ Text.isBlankOnly p = false ∧
      ∀ t ∈ ts.head?, t.kind = .endOfLine ∨ t.Visible) :
    Text.folded (compact (p ++ u)) = Text.folded (Region.compact .code p ++
      ts.flatMap fun t => compactContent t.value) := by
  have hcontent : compactContent p = Region.compact .code p := by
    rcases hstart with rfl | ⟨hblank, -⟩
    · rfl
    · exact compactContent_of_not hblank
  induction h generalizing p with
  | nil => rw [List.append_nil, compact_of_unbroken hp, hcontent, List.flatMap_nil, List.append_nil]
  | @cons t ts b v u hblank hvis hr hu ih =>
    cases hl with
    | cons hshape hends hlexed =>
    obtain ⟨ht, hm⟩ := List.forall_mem_cons.mp hm
    have htail := hapart.tail
    have hfresh := ih hlexed hm htail Text.unbroken_nil Text.balanced_nil (.inl rfl) rfl
    rw [List.nil_append, Region.compact, List.nil_append] at hfresh
    rw [List.flatMap_cons]
    by_cases hk : t.kind = .endOfLine
    · obtain rfl : b = [] := hvis.resolve_right fun hvis => hvis.1 hk
      cases hr with
      | keyword hflow => rw [hk] at hflow; cases hflow
      | verbatim =>
        rw [hk] at hshape
        have hvalue : compactContent t.value = t.value :=
          compactContent_of_forall fun c hc => Text.not_isBlank_of_isBreak (hshape.isBreak c hc)
        rw [List.nil_append, compact_append_breaks hp hshape.ne_nil hshape.isBreak, hcontent,
          hvalue]
        simp only [Text.folded_append, hfresh]
    have hpbv : (p ++ (b ++ v)).Unbroken := by
      rw [Text.unbroken_append, Text.unbroken_append]
      exact ⟨hp, Text.unbroken_of_isBlankOnly hblank, unbroken_of_reads hshape hk hr⟩
    have hline := hr.folded_compactContent_append hshape hb
      (hstart.imp_right fun hp => ⟨hp.1, (hp.2 t rfl).resolve_left hk⟩) hblank hvis
    have htext : p ++ (b ++ (v ++ u)) = (p ++ (b ++ v)) ++ u := by simp
    rw [htext]
    by_cases hnext : ∀ t ∈ ts.head?, t.kind = .endOfLine
    -- The line ends behind `t`, which may be open: what follows starts from an empty line.
    · have hlast := hu.compact_append (fun n hn =>
        ⟨hnext n hn, hlexed.shape n (List.mem_of_mem_head? hn)⟩) hpbv
      rw [hlast, Text.folded_append, hline, hfresh]
      simp only [Text.folded_append, List.append_assoc]
    -- The line goes on, so `t` is balanced, and the line that has begun is longer by it.
    · simp only [not_forall] at hnext
      obtain ⟨n, hn, hnk⟩ := hnext
      obtain ⟨ns, rfl⟩ := List.head?_eq_some_iff.mp hn
      have hboth := ((List.isChain_cons_cons.mp hapart).1.resolve_left hk).resolve_left hnk
      have htb : t.value.Balanced := (balanced_or_isOpen hshape ht).resolve_right fun hopen =>
        hnk (kind_of_isOpen hends (hlexed.shape n List.mem_cons_self) hopen)
      have hnotBlank : Text.isBlankOnly (p ++ (b ++ v)) = false := by
        simp [Text.isBlankOnly_append, hr.isBlankOnly, hboth.1.2]
      have hcontent' := compactContent_of_not hnotBlank
      have key := ih hlexed hm htail hpbv
        (hb.append ((Text.balanced_of_isBlankOnly hblank).append (hr.balanced htb)))
        (.inr ⟨hnotBlank, by simp [hboth.2]⟩) hcontent'
      rw [key, Text.folded_append, ← hcontent', hline]
      simp only [Text.folded_append, List.append_assoc]

/-- A text in which the tokens of a compact program are laid out is compacted to the program. -/
theorem Laid.folded_compact {ts : List Token} {u : Text} (h : Laid ts u) (hl : Lexed ts)
    (hm : ∀ t ∈ ts, t.Unmarked) (hc : compact (texts ts) = texts ts) :
    Text.folded (compact u) = Text.folded (texts ts) := by
  have hapart := hl.apart hm Text.unbroken_nil Text.balanced_nil hc
  have key : ∀ {s : Text}, Laid ts s → Text.folded (compact s) =
      Text.folded (ts.flatMap fun t => compactContent t.value) := fun hs =>
    hs.folded_compact_append hl hm hapart Text.unbroken_nil Text.balanced_nil (.inl rfl)
  rw [key h, ← key (.verbatim ts), hc]

end Token

end Gcode
