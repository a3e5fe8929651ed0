import Gcode.Proofs.Layout.Page
import Gcode.Proofs.Parse.Span
import Gcode.Proofs.Parse.Steps
import Mathlib.Data.List.Chain

/-!
# What formatting does to the ink of a program

Formatting puts blanks in and turns keywords to lower case. It takes no ink from a program but by
trimming, and a trimming takes ink only where white space that is no blank stands at the end of
what is trimmed: the ink of the formatted program is that of the program, up to case, exactly if
no such white space stands at a place where the layout trims.

## Main definitions

* `Layout.unspacedOf` — the text of commands before blanks are put in.

## Main statements

* `Fragment.keeps_written` — what writing a fragment keeps of its ink.
* `Layout.Lays.keeps` — what a page keeps of the ink of its fragments.
* `formatSource_ink_iff` — formatting keeps the ink of exactly the unfrayed programs.
-/

namespace Gcode

open Gcode.Part (Spell)
open Text (Keeps ink)

/-! ## Expressions -/

namespace Node

@[simp] theorem unspaced_none : unspaced none = [] := rfl

mutual

/-- An expression is written with all of its ink if nothing but blanks is trimmed away. -/
theorem keeps_plainText (n : Node) {text : Text} (h : Layout.style.plainText n = .ok text) :
    Keeps text (unspaced (some n)) n.Whole := by
  match n with
  | .number t | .parameter t | .comment t | .unknown t _ =>
    simp only [Style.plainText, Layout.style] at h
    cases h
    simpa [unspaced, parts?, parts, Part.lowered, Whole] using Keeps.refl text
  | .unary sign operand | .word sign operand | .call sign operand =>
    obtain ⟨t, ht, rfl⟩ := map_eq_ok.mp h
    have hk := keeps_plainText? operand ht
    simpa [unspaced, parts?, parts, Part.lowered, Whole] using hk.verbatim sign
  | .bracketed inner closed =>
    obtain ⟨t, ht, rfl⟩ := map_eq_ok.mp h
    have hk := (keeps_plainText? inner ht).verbatim "["
    have hclose := hk.append (.refl (if closed then "]" else ""))
    rw [and_true] at hclose
    cases closed <;> simpa [unspaced, parts?, parts, Part.lowered, Whole, Layout.style] using hclose
  | .binary operator left right =>
    obtain ⟨t, ht, h⟩ := bind_eq_ok.mp h
    obtain ⟨u, hu, rfl⟩ := map_eq_ok.mp h
    have hright := (keeps_plainText? right hu).append_blanks Text.ink_space
    have hlink := (hright.verbatim operator).append_blanks Text.ink_space
    have hk := ((keeps_plainText? left ht).append hlink).trim
    simpa [unspaced, parts?, parts, Part.lowered, Whole, Layout.style] using hk
  | .endOfLine _ | .header _ _ _ _ | .commandLine _ | .oStatement _ _ | .assignment _ _
  | .block _ _ _ _ | .program _ =>
    simp only [Style.plainText, Layout.style] at h
    cases h

theorem keeps_plainText? (n : Option Node) {text : Text}
    (h : Layout.style.plainText? n = .ok text) : Keeps text (unspaced n) (Whole? n) := by
  match n with
  | none =>
    cases h
    exact Keeps.refl []
  | some n => exact keeps_plainText n h

end

end Node

theorem Layout.keeps_expression {n : Option Node} {text : Text}
    (h : Layout.expression n = .ok text) : Keeps text (Node.unspaced n) (Node.Whole? n) := by
  rw [Layout.expression, Style.text_eq_plainText?] at h
  exact Node.keeps_plainText? n h

/-! ## Fragments -/

namespace Layout

/-- The text of commands in their canonical form, before blanks are put in. -/
def unspacedOf (nodes : List (Option Node)) : Text := (Node.partsOf nodes).flatMap Part.lowered

theorem unspacedOf_cons (node : Option Node) (nodes : List (Option Node)) :
    unspacedOf (node :: nodes) = Node.unspaced node ++ unspacedOf nodes := by
  simp [unspacedOf, Node.unspaced, Node.partsOf]

theorem ink_joined_cons (text : Text) (texts : List Text) :
    ink (Text.joined " " (text :: texts)) = ink (text ++ Text.joined " " texts) := by
  cases texts with
  | nil => simp [Text.joined]
  | cons next texts =>
    rw [Text.joined, Text.ink_append, Text.ink_append, Text.ink_append, Text.ink_space,
      List.append_nil]

theorem keeps_joined {nodes : List (Option Node)} {texts : List Text}
    (h : commandTexts nodes = .ok texts) :
    Keeps (Text.joined " " texts) (unspacedOf nodes) (∀ node ∈ nodes, Node.Whole? node) := by
  induction nodes generalizing texts with
  | nil =>
    cases h
    exact (Keeps.refl []).congr (by simp)
  | cons node nodes ih =>
    rw [commandTexts] at h
    obtain ⟨text, htext, h⟩ := bind_eq_ok.mp h
    obtain ⟨more, hmore, h⟩ := bind_eq_ok.mp h
    cases h
    have hk := (keeps_expression htext).append (ih hmore)
    rw [← unspacedOf_cons, ← List.forall_mem_cons] at hk
    exact hk.congr_ink (ink_joined_cons text more)

theorem keeps_commands {nodes : List (Option Node)} {text : Text}
    (h : commands nodes = .ok text) :
    Keeps text (unspacedOf nodes) (∀ node ∈ nodes, Node.Whole? node) := by
  obtain ⟨texts, htexts, rfl⟩ := map_eq_ok.mp h
  exact keeps_joined htexts

/-- Only a header is written as one. -/
theorem exists_header_of_ok {n : Option Node} {text : Text} (h : header n = .ok text) :
    ∃ oWord label keyword condition, n = some (.header oWord label keyword condition) := by
  match n with
  | some (.header oWord label keyword condition) => exact ⟨oWord, label, keyword, condition, rfl⟩
  | none | some (.number _) | some (.parameter _) | some (.unknown _ _) | some (.comment _)
  | some (.endOfLine _) | some (.unary _ _) | some (.binary _ _ _) | some (.bracketed _ _)
  | some (.word _ _) | some (.call _ _) | some (.commandLine _) | some (.oStatement _ _)
  | some (.assignment _ _) | some (.block _ _ _ _) | some (.program _) => cases h

theorem keeps_header {oWord keyword text : Text} {label condition : Option Node}
    (h : header (some (.header oWord label keyword condition)) = .ok text) :
    Keeps text (Node.unspaced (some (.header oWord label keyword condition)))
      (Node.Whole? label ∧ Node.Whole? condition) := by
  have hkeyword : ∀ t : Text, ink (if t.isEmpty then [] else ' ' :: Text.lower t) =
      ink (Text.lower t) := by
    intro t
    cases t with
    | nil => rfl
    | cons c t => rfl
  rw [header] at h
  obtain ⟨t, ht, h⟩ := bind_eq_ok.mp h
  have hword : ∀ k : Text, ink k = ink (Text.lower keyword) →
      Keeps (oWord ++ t ++ k) (oWord ++ Node.unspaced label ++ Text.lower keyword)
        (Node.Whole? label) := by
    intro k hk
    have key := ((keeps_expression ht).verbatim oWord).append (Keeps.of_ink_eq hk)
    exact key.congr (by simp)
  have hbare := hword _ (hkeyword keyword)
  cases condition with
  | none =>
    cases h
    have key := hbare
    simpa [Node.unspaced, Node.parts?, Node.parts, Part.lowered, Node.Whole?] using key
  | some condition =>
    obtain ⟨u, hu, h⟩ := bind_eq_ok.mp h
    cases h
    have key := hbare.append ((keeps_expression hu).append_blanks Text.ink_space)
    simpa [Node.unspaced, Node.parts?, Node.parts, Part.lowered] using key

end Layout

theorem Fragment.keeps_written {f : Fragment} {text : Text} (h : f.written = .ok text) :
    Keeps text f.unspaced f.Whole := by
  cases f with
  | lineBreak t | comment t | stray t =>
    cases h
    simpa [unspaced, parts, Part.lowered, Whole] using Keeps.refl text
  | assignment target value =>
    obtain ⟨t, ht, rfl⟩ := map_eq_ok.mp h
    have hvalue := (Layout.keeps_expression ht)
    have hsign := ((hvalue.append_blanks Text.ink_space).verbatim "=").append_blanks Text.ink_space
    have key := (hsign.verbatim target).trimRight
    simpa [unspaced, parts, Part.lowered, Whole, Node.unspaced] using key
  | header head =>
    obtain ⟨oWord, label, keyword, condition, rfl⟩ := Layout.exists_header_of_ok h
    exact Layout.keeps_header h
  | commands nodes => exact Layout.keeps_commands h
  | tail nodes =>
    obtain ⟨t, ht, rfl⟩ := map_eq_ok.mp h
    exact (Layout.keeps_commands ht).append_blanks Text.ink_space

/-! ## Fragments on a page -/

namespace Reading

open Token (texts)

variable {cut : Prop}

/-- The texts of a fragment are those of the tokens that it stands for. -/
theorem Piece.reaches {f : Fragment} {ahead rest : List Token} (h : Piece cut f ahead rest)
    (hs : Shaped ahead) : Reaches f.parts (texts ahead) (texts rest) := by
  cases h with
  | lineBreak | comment => exact .verbatim _ _
  | stray _ hused _ _ =>
    rw [hused, Token.texts_append]
    exact .verbatim _ _
  | assignment ht hu h =>
    have hassign := hs.tail.head
    rw [hu] at hassign
    exact .cons rfl (.cons hassign.eq_assign (h.reaches hs.tail.tail))
  | header h => exact h.reaches hs
  | commands _ _ h | tail _ h => exact reaches_commands h hs

/-- Only the fragment of a line break leaves its line. -/
theorem Piece.spans {f : Fragment} {ahead rest : List Token} (h : Piece cut f ahead rest)
    (hf : f.isLineBreak = false) : Spans ahead rest := by
  cases h with
  | lineBreak => cases hf
  | comment rest ht => exact .single (by rw [ht]; decide) rest
  | stray _ hused hline _ => exact ⟨_, hused, hline⟩
  | assignment ht hu h => exact .cons (by rw [ht]; decide) (.cons (by rw [hu]; decide) h.spans)
  | header h => exact h.spans
  | commands _ _ h | tail _ h => exact spans_commands h

theorem Piece.suffix {f : Fragment} {ahead rest : List Token} (h : Piece cut f ahead rest) :
    rest <:+ ahead := by
  cases hf : f.isLineBreak with
  | false =>
    obtain ⟨used, hused, -⟩ := h.spans hf
    exact ⟨used, hused.symm⟩
  | true =>
    cases h with
    | lineBreak => exact List.suffix_cons _ _
    | _ => cases hf

/-- A fragment other than a line break is not read at the end of a line. -/
theorem Piece.not_atLineEnd {f : Fragment} {ahead rest : List Token}
    (h : Piece cut f ahead rest) (hf : f.isLineBreak = false) : ¬AtLineEnd ahead := by
  obtain ⟨used, rfl, hline⟩ := h.spans hf
  cases used with
  | nil => exact absurd h.length_lt (Nat.lt_irrefl _)
  | cons t used => exact fun hend => hline t List.mem_cons_self (hend t rfl)

theorem reaches_pieces {fs : List Fragment} {ahead rest : List Token}
    (h : Series (Piece cut) fs ahead rest) (hs : Shaped ahead) :
    Reaches (fs.flatMap Fragment.parts) (texts ahead) (texts rest) := by
  induction h with
  | nil => exact .refl _
  | cons hp _ ih => exact (hp.reaches hs).append (ih (hs.of_suffix hp.suffix))

/-- A fragment other than a line break spells tokens of one line. -/
theorem Piece.spelled {f : Fragment} {ahead rest : List Token} (h : Piece cut f ahead rest)
    (hs : Shaped ahead) (hf : f.isLineBreak = false) :
    ∃ used, ahead = used ++ rest ∧ OnLine used ∧ (texts used).Unbroken ∧
      Text.folded (texts used) = Text.folded f.unspaced := by
  obtain ⟨used, hused, hline⟩ := h.spans hf
  obtain ⟨s, hspell, htexts⟩ := h.reaches hs
  have hs' : s = texts used := by
    rw [hused, Token.texts_append] at htexts
    exact (List.append_cancel_right htexts).symm
  subst hs'
  refine ⟨used, hused, hline, Token.unbroken_texts (fun t ht => hs t ?_) hline,
    hspell.folded_eq_lowered⟩
  exact hused ▸ List.mem_append_left rest ht

/-- A fragment other than a line break is written within a line. -/
theorem Piece.unbroken_written {f : Fragment} {ahead rest : List Token}
    (h : Piece cut f ahead rest) (hs : Shaped ahead) (hf : f.isLineBreak = false) {text : Text}
    (hw : f.written = .ok text) : text.Unbroken := by
  obtain ⟨used, -, -, hunbroken, hfolded⟩ := h.spelled hs hf
  exact Text.unbroken_of_ink_subset (Fragment.keeps_written hw).sublist.subset
    (Text.unbroken_of_folded_eq hfolded hunbroken)

theorem Piece.ends {f : Fragment} {ahead rest : List Token} (h : Piece cut f ahead rest)
    (hs : Shaped ahead) : f.Ends := by
  intro text hw
  cases hf : f.isLineBreak with
  | true =>
    cases h with
    | lineBreak rest ht =>
      cases hw
      have hshape := hs.head
      rw [ht] at hshape
      rw [List.getLast?_eq_some_getLast hshape.ne_nil]
      exact hshape.isBreak _ (List.getLast_mem _)
    | _ => cases hf
  | false =>
    cases hl : text.getLast? with
    | none => rfl
    | some c => exact h.unbroken_written hs hf hw c (List.mem_of_getLast? hl)

theorem ends_pieces {fs : List Fragment} {ahead rest : List Token}
    (h : Series (Piece cut) fs ahead rest) (hs : Shaped ahead) : ∀ f ∈ fs, f.Ends := by
  induction h with
  | nil => simp
  | cons hp _ ih =>
    rw [List.forall_mem_cons]
    exact ⟨hp.ends hs, ih (hs.of_suffix hp.suffix)⟩

/-- The fragments of a program that was read spell its tokens, and each ends where it should; of
the last one nothing has to be known. -/
theorem Program.spell_fragments {nodes : List Node} {ts : List Token} (h : Program cut nodes ts)
    (hs : Shaped ts) :
    Spell ((Node.fragmentsOf (nodes.map some)).flatMap Fragment.parts) (texts ts) ∧
      ∀ f ∈ (Node.fragmentsOf (nodes.map some)).dropLast, f.Ends := by
  cases h with
  | whole h =>
    obtain ⟨s, hspell, htexts⟩ := reaches_pieces h.pieces hs
    rw [Token.texts_nil, List.append_nil] at htexts
    refine ⟨htexts ▸ hspell, fun f hf => ?_⟩
    exact ends_pieces h.pieces hs f (List.dropLast_subset _ hf)
  | @cutOff nodes _ rest line _ _ h =>
    obtain ⟨s, hspell, htexts⟩ := reaches_pieces h.pieces hs
    have hstray : Node.fragmentsOf ((nodes ++ [Node.unknown (texts rest) line]).map some) =
        Node.fragmentsOf (nodes.map some) ++ [.stray (texts rest)] := by
      rw [List.map_append, fragmentsOf_append]
      rfl
    rw [hstray, List.flatMap_append, List.dropLast_concat, htexts]
    exact ⟨hspell.append (.verbatim _), ends_pieces h.pieces hs⟩

end Reading

/-- What a text that is laid out from fragments keeps of their ink. -/
theorem Layout.Lays.keeps {fs : List Fragment} {t : Text} (h : Layout.Lays fs t) :
    Keeps t (fs.flatMap Fragment.unspaced) (Fragment.Intact fs) := by
  have cons : ∀ {f g : Fragment} {fs : List Fragment} {t u : Text} {P : Prop},
      Keeps t f.unspaced P →
      Keeps u ((g :: fs).flatMap Fragment.unspaced) (Fragment.Intact (g :: fs)) →
      (P ↔ f.Whole ∧ f.Seam g) →
      Keeps (t ++ u) ((f :: g :: fs).flatMap Fragment.unspaced)
        (Fragment.Intact (f :: g :: fs)) := by
    intro f g fs t u P ht hu hP
    refine (ht.append hu).congr ?_
    rw [hP, Fragment.Intact, Fragment.Intact, List.forall_mem_cons (a := f), List.isChain_cons_cons]
    tauto
  induction h with
  | @single f t hw =>
    have hk := Fragment.keeps_written hw
    rw [List.flatMap_singleton]
    exact hk.congr (by simp [Fragment.Intact])
  | put hw ho _ ih =>
    refine cons (Fragment.keeps_written hw) ih (iff_self_and.mpr fun _ hopens => ?_)
    rcases ho with ho | ⟨-, hf⟩
    · rw [ho] at hopens
      contradiction
    · exact .inl hf
  | indented n hw hf _ _ _ ih =>
    exact cons (Fragment.keeps_written hw) (ih.append_blanks (Text.ink_replicate_space n))
      (iff_self_and.mpr fun _ _ => .inl hf)
  | spaced hw hf ho _ ih =>
    refine cons (Fragment.keeps_written hw).trimRight (ih.append_blanks Text.ink_space)
      (and_congr_right fun _ => ?_)
    simp [Fragment.Seam, hf, ho]

/-! ## Whole programs -/

/-- A line break without characters in front of fragments changes nothing. -/
theorem Fragment.intact_cons_lineBreak (fs : List Fragment) :
    Intact (.lineBreak [] :: fs) ↔ Intact fs := by
  cases fs with
  | nil => simp [Intact, Whole]
  | cons f fs => simp [Intact, Whole, Seam, isLineBreak]

namespace Reading.Run

variable {source : Text} {limits : Limits}

/-- A program that was read is written, and laid out from its fragments. -/
theorem lays (run : Run source limits) (width : Int) :
    ∃ t, run.read.program.written width = .ok t ∧
      Layout.Lays (.lineBreak [] :: run.fragments) t := by
  obtain ⟨page, hwrites, hwritten⟩ := run.writes width
  obtain ⟨-, hends⟩ := run.reads.spell_fragments run.lexed.shape
  exact ⟨page.text, hwritten, hwrites.lays_blank hends⟩

theorem folded_compact (run : Run source limits) :
    Text.folded (compact source) = Text.folded (run.fragments.flatMap Fragment.unspaced) := by
  obtain ⟨hspell, -⟩ := run.reads.spell_fragments run.lexed.shape
  have key := hspell.folded_eq_lowered
  rwa [run.texts_eq, List.flatMap_assoc] at key

/-- What is laid out from the fragments lacks ink of them exactly if the program is frayed. -/
theorem keeps (run : Run source limits) {t : Text}
    (h : Layout.Lays (.lineBreak [] :: run.fragments) t) :
    Keeps t (run.fragments.flatMap Fragment.unspaced) run.read.program.Unfrayed :=
  h.keeps.congr (Fragment.intact_cons_lineBreak _)

/-- The fragments have the ink of the source, up to case, and so has what is laid out from them,
exactly if the program is unfrayed. -/
theorem ink_iff (run : Run source limits) {t : Text}
    (h : Layout.Lays (.lineBreak [] :: run.fragments) t) :
    Text.folded (ink t) = Text.folded (ink source) ↔ run.read.program.Unfrayed := by
  have hk := run.keeps h
  have hsource : Text.folded (ink source) =
      Text.folded (ink (run.fragments.flatMap Fragment.unspaced)) := by
    rw [← ink_compact source, ← Text.ink_folded, run.folded_compact, Text.ink_folded]
  rw [← hk.eq_iff, hsource]
  constructor
  · intro heq
    have hlength := congrArg List.length heq
    rw [Text.length_folded, Text.length_folded] at hlength
    exact hk.sublist.eq_of_length hlength
  · intro heq
    rw [heq]

end Reading.Run

/-- Formatting keeps the ink of a program, up to the case of its keywords, exactly if no trimming
takes anything but blanks from it. -/
theorem formatSource_ink_iff (source : Text) (width : Int) (limits : Limits) :
    ∃ result, formatSource source ⟨width, limits, "ngc"⟩ = .ok result ∧
      (Text.folded (ink result.text) = Text.folded (ink source) ↔
        result.read.program.Unfrayed) := by
  obtain ⟨run⟩ := Reading.nonempty_run source limits
  obtain ⟨t, hwritten, hlays⟩ := run.lays width
  exact ⟨_, run.formatSource_eq hwritten, run.ink_iff hlays⟩

/-- A no-break space at the end of a name that is assigned is lost. -/
theorem formatSource_ink_ne :
    ∃ result, formatSource "#1=<a\u00a0" {} = .ok result ∧
      Text.folded (ink result.text) ≠ Text.folded (ink "#1=<a\u00a0") := by
  obtain ⟨run⟩ := Reading.nonempty_run "#1=<a\u00a0" {}
  obtain ⟨t, hwritten, hlays⟩ := run.lays 2
  obtain ⟨-, hnodes, -⟩ :=
    @Reading.Run.eq_of_assignment _ run "#1" "<a\u00a0" (by decide +kernel)
  refine ⟨_, run.formatSource_eq hwritten, fun hink => ?_⟩
  obtain ⟨hwhole, -⟩ := (run.ink_iff hlays).mp hink
  simp only [Reading.Run.read, hnodes] at hwhole
  obtain ⟨-, hsturdy⟩ := hwhole (.assignment "#1" (some (.parameter "<a\u00a0"))) (.head _)
  exact absurd hsturdy (by decide)

end Gcode
