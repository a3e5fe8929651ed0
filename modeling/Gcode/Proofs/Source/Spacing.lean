import Gcode.Format
import Gcode.Proofs.Source.Lines
import Gcode.Proofs.Token.Blank

/-!
# Blanks between the characters of code

Spaces and tabs may be put anywhere on a line that holds something else, as long as it is outside
comments and not between an opening parenthesis and the closing one right behind it, which would
open a comment. The program is compacted to the same text, so that nothing that is made of it
changes.

## Main definitions

* `Place` — a place on a line of a program.
* `Place.insert` — the program with a text put there.
* `Place.IsLoose` — whether blanks mean nothing there.

## Main statements

* `Region.compact_insert` — what is put behind the beginning of a line.
* `Place.exists_place` — every position is such a place, except within a line break.
* `Place.lines_insert` — what is put on a line stays on it.
* `Place.blanks_insignificant` — blanks do not matter at a loose place.
-/

namespace Gcode

/-- A place on a line of a program, which may be one of its ends. -/
structure Place (source : Text) where
  /-- The lines above. -/
  front : List Line
  /-- The line up to the place. -/
  before : Text
  /-- The line from the place on. -/
  after : Text
  ending : Text
  /-- The lines below. -/
  back : List Line
  lines_eq : lines source = front ++ ⟨before ++ after, ending⟩ :: back

/-- The character at the end of a beginning of a line that leads to code leads there whatever
follows, unless it is the first of two parentheses. -/
theorem Region.next_of_code {region : Region} {c : Char} {v : Text}
    (hcode : region.next c v = .code) (hpair : ¬(c = '(' ∧ v.head? = some ')')) (w : Text) :
    region.next c w = region.next c v := by
  cases region with
  | parenthesized | remainder => rfl
  | code =>
    have hparen : c ≠ '(' := by
      rintro rfl
      rw [next, if_neg (by decide)] at hcode
      split at hcode
      · cases hcode
      case isFalse hhead => exact hpair ⟨rfl, by simpa using hhead⟩
    simp [next, hparen]

/-- Blanks right behind the beginning of a line mean nothing if it leads to code, unless they part
two parentheses. -/
theorem Region.compact_insert {region : Region} {u v blanks : Text}
    (hb : Text.isBlankOnly blanks = true) (hcode : region.behind u v = .code)
    (hpair : ¬(u.getLast? = some '(' ∧ v.head? = some ')')) :
    compact region (u ++ (blanks ++ v)) = compact region (u ++ v) := by
  induction u generalizing region with
  | nil =>
    obtain rfl : region = .code := hcode
    exact compact_append_of_isBlankOnly hb v
  | cons c u ih =>
    have hnext : region.next c (u ++ (blanks ++ v)) = region.next c (u ++ v) := by
      cases u with
      | cons d u => cases region <;> rfl
      | nil => exact next_of_code hcode (fun ⟨hc, hv⟩ => hpair ⟨by rw [hc]; rfl, hv⟩) _
    rw [List.cons_append, List.cons_append, compact_cons, compact_cons, hnext, ih hcode]
    intro ⟨hlast, hhead⟩
    cases u with
    | nil => cases hlast
    | cons d u => exact hpair ⟨by rwa [List.getLast?_cons_cons], hhead⟩

/-! ## Changing a line -/

/-- What the lines below the first one hold has them as its lines. -/
theorem lines_flatMap_tail {s : Text} {line : Line} {more : List Line} (h : lines s = line :: more)
    (hne : more ≠ []) : lines (more.flatMap Line.text) = more := by
  fun_induction lines s generalizing line with
  | case1 =>
    cases h
    exact absurd rfl hne
  | case2 rest ih | case3 c rest _ _ ih =>
    obtain ⟨-, rfl⟩ := List.cons.inj h
    rw [flatMap_lines]
  | case4 c rest _ _ hl ih => exact absurd hl (lines_ne_nil rest)
  | case5 c rest _ _ first below hl ih =>
    obtain ⟨-, rfl⟩ := List.cons.inj h
    exact ih hl

/-- Below the first line there may be another text, as long as the break that ends the line does not
become half of a pair. -/
theorem lines_text_append {s : Text} {line : Line} {more : List Line} (h : lines s = line :: more)
    (hne : more ≠ []) {t : Text}
    (ht : t.head? = some '\n' → (more.flatMap Line.text).head? = some '\n') :
    lines (line.text ++ t) = line :: lines t := by
  fun_induction lines s generalizing line with
  | case1 =>
    cases h
    exact absurd rfl hne
  | case2 rest ih =>
    obtain ⟨rfl, rfl⟩ := List.cons.inj h
    rfl
  | case3 c rest hpair hc ih =>
    obtain ⟨rfl, rfl⟩ := List.cons.inj h
    rw [flatMap_lines] at ht
    refine lines_cons_break hc ?_
    rintro ⟨hr, hfeed⟩
    obtain ⟨u, hu⟩ := List.head?_eq_some_iff.mp (ht hfeed)
    exact hpair u hr hu
  | case4 c rest _ _ hl ih => exact absurd hl (lines_ne_nil rest)
  | case5 c rest _ hc first below hl ih =>
    obtain ⟨rfl, rfl⟩ := List.cons.inj h
    have hline := lines_append (u := [c]) (by simpa using hc) (first.text ++ t)
    rw [ih hl] at hline
    exact hline

/-- The first line may have another content. -/
theorem lines_content_append {s content ending : Text} {more : List Line}
    (h : lines s = ⟨content, ending⟩ :: more) {content' : Text} (hu : content'.Unbroken) :
    lines (content' ++ (ending ++ more.flatMap Line.text)) = ⟨content', ending⟩ :: more := by
  fun_induction lines s generalizing content with
  | case1 =>
    cases h
    rw [lines_append hu]
    simp [lines]
  | case2 rest ih =>
    cases h
    rw [flatMap_lines, lines_append hu]
    simp [lines]
  | case3 c rest hpair hc ih =>
    cases h
    rw [flatMap_lines, lines_append hu, List.singleton_append, lines_cons_break hc]
    · simp
    · rintro ⟨rfl, hfeed⟩
      obtain ⟨u, hu⟩ := List.head?_eq_some_iff.mp hfeed
      exact hpair u rfl hu
  | case4 c rest _ _ hl ih => exact absurd hl (lines_ne_nil rest)
  | case5 c rest _ _ first below hl ih =>
    cases h
    exact ih hl

/-- No line break stands within a line. -/
theorem unbroken_of_mem_lines {s : Text} {line : Line} (h : line ∈ lines s) :
    line.content.Unbroken := by
  fun_induction lines s generalizing line with
  | case1 =>
    obtain rfl := List.mem_singleton.mp h
    exact Text.unbroken_nil
  | case2 rest ih | case3 c rest _ _ ih =>
    rcases List.mem_cons.mp h with rfl | h
    · exact Text.unbroken_nil
    · exact ih h
  | case4 c rest _ _ hl ih => exact absurd hl (lines_ne_nil rest)
  | case5 c rest _ hc first below hl ih =>
    rcases List.mem_cons.mp h with rfl | h
    · exact Text.unbroken_cons.mpr ⟨by simpa using hc, ih (by simp [hl])⟩
    · exact ih (by simp [hl, h])

/-- A line may have another content, as long as it has some. -/
theorem lines_content {s content ending : Text} {front back : List Line}
    (h : lines s = front ++ ⟨content, ending⟩ :: back) {content' : Text}
    (hu : content'.Unbroken) (hne : content' ≠ []) :
    lines (front.flatMap Line.text ++ (content' ++ (ending ++ back.flatMap Line.text))) =
      front ++ ⟨content', ending⟩ :: back := by
  induction front generalizing s with
  | nil => exact lines_content_append h hu
  | cons line front ih =>
    have hbelow := lines_flatMap_tail h (by simp)
    have hline := ih hbelow
    rw [List.flatMap_cons, List.append_assoc, lines_text_append h (by simp), hline]
    · rfl
    · intro hfeed
      cases front with
      | nil =>
        have hfirst := (head?_eq_feed_iff hline).mp hfeed
        exact absurd (congrArg Line.content hfirst) hne
      | cons below front =>
        exact (head?_eq_feed_iff hbelow).mpr ((head?_eq_feed_iff hline).mp hfeed)

namespace Place

variable {source : Text}

/-- The program with a text put at the place. -/
def insert (p : Place source) (t : Text) : Text :=
  p.front.flatMap Line.text ++
    ((p.before ++ (t ++ p.after)) ++ (p.ending ++ p.back.flatMap Line.text))

theorem insert_nil (p : Place source) : p.insert [] = source := by
  have htext := flatMap_lines source
  rw [p.lines_eq] at htext
  simpa [insert, Line.text] using htext

/-- Every position of a program is such a place, except within the pair that ends a line. -/
theorem exists_place (x : Text) {y : Text}
    (h : ¬(x.getLast? = some '\r' ∧ y.head? = some '\n')) :
    ∃ p : Place (x ++ y), p.front.flatMap Line.text ++ p.before = x := by
  induction x with
  | nil =>
    obtain ⟨line, more, hl⟩ := List.exists_cons_of_ne_nil (lines_ne_nil y)
    exact ⟨⟨[], [], line.content, line.ending, more, hl⟩, rfl⟩
  | cons c x ih =>
    obtain ⟨⟨front, before, after, ending, back, hl⟩, hx⟩ :=
      ih fun ⟨hlast, hhead⟩ => h ⟨by simp [List.getLast?_cons, hlast], hhead⟩
    dsimp only at hx
    by_cases hc : Text.isBreak c = true
    case neg =>
      have hcons := lines_append (u := [c]) (by simpa using hc) (x ++ y)
      rw [hl] at hcons
      cases front with
      | nil => exact ⟨⟨[], c :: before, after, ending, back, hcons⟩, congrArg (c :: ·) hx⟩
      | cons line front =>
        exact ⟨⟨line.cons c :: front, before, after, ending, back, hcons⟩, by simp [← hx]⟩
    by_cases hpair : c = '\r' ∧ (x ++ y).head? = some '\n'
    case neg =>
      refine ⟨⟨⟨[], [c]⟩ :: front, before, after, ending, back, ?_⟩, by simp [← hx, Line.text]⟩
      rw [List.cons_append, lines_cons_break hc hpair, hl]
      rfl
    obtain ⟨rfl, hfeed⟩ := hpair
    cases x with
    | nil => exact absurd ⟨rfl, hfeed⟩ h
    | cons d x =>
      obtain rfl : d = '\n' := by simpa using hfeed
      rw [List.cons_append, lines_feed] at hl
      cases front with
      | nil =>
        have hnil := congrArg Line.content (List.cons.inj hl).1
        simp_all
      | cons line front =>
        obtain ⟨rfl, hbelow⟩ := List.cons.inj hl
        refine ⟨⟨⟨[], ['\r', '\n']⟩ :: front, before, after, ending, back, ?_⟩, ?_⟩
        · rw [List.cons_append, List.cons_append, lines, hbelow]
          rfl
        · simpa [Line.text] using hx

/-- Blanks mean nothing at the place: it is on a line with ink, outside comments, and not within a
pair of parentheses. -/
structure IsLoose (p : Place source) : Prop where
  ink : Text.isBlankOnly (p.before ++ p.after) = false
  code : Region.behind .code p.before p.after = .code
  apart : ¬(p.before.getLast? = some '(' ∧ p.after.head? = some ')')

/-- What is put on a line with ink is on that line. -/
theorem lines_insert (p : Place source) {t : Text} (ht : t.Unbroken)
    (hink : Text.isBlankOnly (p.before ++ p.after) = false) :
    lines (p.insert t) = p.front ++ ⟨p.before ++ (t ++ p.after), p.ending⟩ :: p.back := by
  have hline : (p.before ++ p.after).Unbroken := by
    have hmem : ⟨p.before ++ p.after, p.ending⟩ ∈ lines source := by
      rw [p.lines_eq]
      exact List.mem_append_right p.front List.mem_cons_self
    exact unbroken_of_mem_lines hmem
  obtain ⟨hbefore, hafter⟩ := Text.unbroken_append.mp hline
  refine lines_content p.lines_eq (by simp [ht, hbefore, hafter]) fun hnil => ?_
  simp only [List.append_eq_nil_iff] at hnil
  simp [hnil] at hink

/-- At a loose place, blanks do not change what the program is compacted to. -/
theorem compact_insert {p : Place source} (hp : p.IsLoose) {blanks : Text}
    (hb : Text.isBlankOnly blanks = true) : compact (p.insert blanks) = compact source := by
  have hblank : Text.isBlankOnly (p.before ++ (blanks ++ p.after)) = false := by
    have hink := hp.ink
    rw [Text.isBlankOnly_append] at hink
    rw [Text.isBlankOnly_append, Text.isBlankOnly_append, hb, Bool.true_and, hink]
  have hline : compactContent (p.before ++ (blanks ++ p.after)) =
      compactContent (p.before ++ p.after) := by
    rw [compactContent_of_not hblank, compactContent_of_not hp.ink,
      Region.compact_insert hb hp.code hp.apart]
  rw [compact, compact, p.lines_insert (Text.unbroken_of_isBlankOnly hb) hp.ink, p.lines_eq]
  simp only [List.flatMap_append, List.flatMap_cons, Line.text_compact, hline]

/-- Between the two parentheses, a blank would begin a comment. -/
example : compact "( )X" ≠ compact "()X" := by decide

/-- At a loose place, blanks do not matter: the tokens of the program are the same, its tree and the
diagnostics within any limits, and what it is formatted to with any options. -/
theorem blanks_insignificant (p : Place source) (hp : p.IsLoose) {blanks : Text}
    (hb : Text.isBlankOnly blanks = true) :
    compact (p.insert blanks) = compact source ∧
    tokens (p.insert blanks) = tokens source ∧
    (∀ limits, readProgram (p.insert blanks) limits = readProgram source limits) ∧
    ∀ options, (formatSource (p.insert blanks) options).map (fun f => (f.text, f.read)) =
      (formatSource source options).map fun f => (f.text, f.read) := by
  have hcompact := compact_insert hp hb
  have hlexer : Lexer.ofSource (p.insert blanks) = Lexer.ofSource source := by
    rw [Lexer.ofSource, Lexer.ofSource, hcompact]
  have hread : ∀ limits, readProgram (p.insert blanks) limits = readProgram source limits := by
    intro limits
    rw [readProgram, readProgram, hlexer]
  refine ⟨hcompact, ?_, hread, fun options => ?_⟩
  · rw [tokens, tokens, hlexer]
  · unfold formatSource
    cases Formatter.ofOptions [] options with
    | error e => rfl
    | ok formatter =>
      dsimp only
      rw [Formatter.format, Formatter.format, Formatter.read, Formatter.read, hread]
      cases readProgram source formatter.options.limits with
      | error e => rfl
      | ok r =>
        dsimp only
        cases formatter.write r.program r.diagnostics <;> rfl

/-- Behind a comment, blanks do not matter. -/
theorem blanks_insignificant_comment : ∃ p : Place "G1(a b)X2\n", p.IsLoose ∧
    Text.isBlankOnly " \t" = true ∧ p.insert " \t" = "G1(a b) \tX2\n" ∧
    tokens (p.insert " \t") = tokens "G1(a b)X2\n" := by
  have hlines : lines "G1(a b)X2\n" =
      [] ++ ⟨("G1(a b)" : Text) ++ ("X2" : Text), ['\n']⟩ :: [⟨[], []⟩] := by decide
  have hloose : (⟨[], "G1(a b)", "X2", ['\n'], [⟨[], []⟩], hlines⟩ : Place _).IsLoose :=
    ⟨rfl, rfl, by simp⟩
  exact ⟨_, hloose, rfl, rfl, (blanks_insignificant _ hloose rfl).2.1⟩

end Place

end Gcode
