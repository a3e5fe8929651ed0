import Gcode.Proofs.Layout.Fragment

/-!
# Pages as texts

Putting a statement on a page may change the end of what was put there before. Seen from the
whole page, every fragment is followed by the blanks that the next one asks for: the text of the
page is known from its fragments alone, and lines begin behind the line breaks among them.

## Main definitions

* `Fragment.Ends` — only behind a line break a line begins.
* `Layout.Lays` — fragments that give a text.

## Main statements

* `Layout.Writes.lays` — the fragments that fill a page give its text.
-/

namespace Gcode

/-- A line begins behind the text of the fragment exactly if the fragment is a line break. -/
def Fragment.Ends (f : Fragment) : Prop :=
  ∀ text, f.written = .ok text → text.getLast?.any Text.isBreak = f.isLineBreak

namespace Layout

/-- The fragments give the text one behind the other, with blanks before those that open a
statement: at the start of a line any number of spaces, else a single one, which takes the place
of the white space at the end of the fragment before. -/
inductive Lays : List Fragment → Text → Prop
  | single {f : Fragment} {t : Text} : f.written = .ok t → Lays [f] t
  | put {f g : Fragment} {fs : List Fragment} {t u : Text} : f.written = .ok t →
    g.opens = false ∨ g.isBlankText = true ∧ f.isLineBreak = true → Lays (g :: fs) u →
    Lays (f :: g :: fs) (t ++ u)
  | indented {f g : Fragment} {fs : List Fragment} {t u : Text} (n : Nat) : f.written = .ok t →
    f.isLineBreak = true → g.opens = true → g.isBlankText = false → Lays (g :: fs) u →
    Lays (f :: g :: fs) (t ++ (List.replicate n ' ' ++ u))
  | spaced {f g : Fragment} {fs : List Fragment} {t u : Text} : f.written = .ok t →
    f.isLineBreak = false → g.opens = true → Lays (g :: fs) u →
    Lays (f :: g :: fs) (Text.trimRight t ++ ' ' :: u)

theorem text_beginStatement {page : Page} (width level : Nat) (h : page.atLineStart = true) :
    ∃ n, (page.beginStatement width level).text = page.text ++ List.replicate n ' ' := by
  rw [Page.beginStatement, if_pos h]
  by_cases hl : level = 0
  · exact ⟨0, by simp [hl]⟩
  · exact ⟨width * level, by rw [if_neg hl, Page.text_put]⟩

/-- Where no line begins, the statement takes the place of white space at the end of the page. -/
theorem text_beginStatement_of_not {page : Page} (width level : Nat)
    (h : page.atLineStart = false) {text before : Text} {pieces : List Text}
    (hpieces : page.pieces = text :: pieces) (htext : page.text = before ++ text) :
    (page.beginStatement width level).text = before ++ Text.trimRight text ++ " " := by
  have hbefore : Page.text ⟨pieces⟩ = before := by
    have hput : page.text = Page.text ⟨pieces⟩ ++ text := by
      rw [← Page.text_put, Page.put, ← hpieces]
    rw [hput] at htext
    exact List.append_cancel_right htext
  rw [Page.beginStatement, if_neg (by simp [h]), hpieces, ← hbefore, ← Page.text_put,
    ← Page.text_put]
  rfl

/-- What a page holds before fragments are put on it: `text`, which is that of the fragment `g`,
comes last. Nothing has to be known about the end of `text` if nothing follows. -/
structure Page.Holds (page : Page) (before : Text) (g : Fragment) (text : Text)
    (fs : List Fragment) : Prop where
  written_eq : g.written = .ok text
  text_eq : page.text = before ++ text
  start_eq : fs ≠ [] → page.atLineStart = g.isLineBreak
  pieces_eq : page.atLineStart = false → ∃ pieces, page.pieces = text :: pieces

/-- A fragment that was put on a page comes last. -/
theorem Page.holds_put (page : Page) {f : Fragment} {fs : List Fragment} {text : Text}
    (hw : f.written = .ok text) (hends : fs ≠ [] → f.Ends) :
    (page.put text).Holds page.text f text fs where
  written_eq := hw
  text_eq := Page.text_put page text
  start_eq hfs := hends hfs text hw
  pieces_eq _ := ⟨page.pieces, rfl⟩

theorem Writes.lays {width : Nat} {page last : Page} {fs : List Fragment}
    (h : Writes width page fs last) {g : Fragment} {text before : Text}
    (hpage : page.Holds before g text fs) (hends : ∀ f ∈ fs.dropLast, f.Ends) :
    ∃ u, Lays (g :: fs) u ∧ last.text = before ++ u := by
  have dropLast_cons : ∀ {f : Fragment} {fs : List Fragment}, (∀ g ∈ (f :: fs).dropLast, g.Ends) →
      (fs ≠ [] → f.Ends) ∧ ∀ g ∈ fs.dropLast, g.Ends := by
    intro f fs hfs
    cases fs with
    | nil => exact ⟨fun h => absurd rfl h, by simp⟩
    | cons f' fs =>
      rw [List.dropLast_cons_cons, List.forall_mem_cons] at hfs
      exact ⟨fun _ => hfs.1, hfs.2⟩
  induction h generalizing g text before with
  | nil page => exact ⟨text, .single hpage.written_eq, hpage.text_eq⟩
  | @put page last f fs text' hw' ho _ ih =>
    obtain ⟨hf, hfs⟩ := dropLast_cons hends
    obtain ⟨u, hu, hlast⟩ := ih (page.holds_put hw' hf) hfs
    have ho' : f.opens = false ∨ f.isBlankText = true ∧ g.isLineBreak = true := by
      rwa [Fragment.stays, hpage.start_eq (by simp), Bool.and_eq_true] at ho
    refine ⟨text ++ u, .put hpage.written_eq ho' hu, ?_⟩
    rw [hlast, hpage.text_eq, List.append_assoc]
  | @opened page last f fs text' level hw' ho hs _ ih =>
    obtain ⟨hf, hfs⟩ := dropLast_cons hends
    obtain ⟨u, hu, hlast⟩ := ih ((page.beginStatement width level).holds_put hw' hf) hfs
    have hg := hpage.start_eq (by simp)
    cases hstart : page.atLineStart with
    | true =>
      obtain ⟨n, hn⟩ := text_beginStatement width level hstart
      rw [Fragment.stays, hstart, Bool.and_true] at hs
      refine ⟨_, .indented n hpage.written_eq (hg ▸ hstart) ho hs hu, ?_⟩
      rw [hlast, hn, hpage.text_eq, List.append_assoc, List.append_assoc]
    | false =>
      obtain ⟨pieces, hpieces⟩ := hpage.pieces_eq hstart
      refine ⟨_, .spaced hpage.written_eq (hg ▸ hstart) ho hu, ?_⟩
      rw [hlast, text_beginStatement_of_not width level hstart hpieces hpage.text_eq]
      simp

/-- The fragments that fill a blank page give its text. Before the first one, there is as much as
a line break without characters. -/
theorem Writes.lays_blank {width : Nat} {last : Page} {fs : List Fragment}
    (h : Writes width .blank fs last) (hends : ∀ f ∈ fs.dropLast, f.Ends) :
    Lays (.lineBreak [] :: fs) last.text := by
  have hblank : Page.blank.Holds [] (.lineBreak []) [] fs :=
    ⟨rfl, rfl, fun _ => rfl, fun hstart => absurd hstart (by decide)⟩
  obtain ⟨u, hu, hlast⟩ := h.lays hblank hends
  rw [List.nil_append] at hlast
  rwa [hlast]

end Layout

end Gcode
