import Gcode.Format
import Gcode.Proofs.Node.Fragment
import Gcode.Proofs.Parse.Lossless
import Mathlib.Data.List.Chain

/-!
# Writing fragment by fragment

A program that was read can be written: each of its fragments has a text, and the page of the
program is the blank page on which its fragments are put one after the other.

## Main definitions

* `Fragment.written` — the text of a fragment.
* `Reading.Piece` — the tokens that a fragment stands for.
* `Layout.Writes` — fragments put on a page.

## Main statements

* `Reading.Statements.pieces` — statements are read fragment by fragment.
* `Reading.Program.writes` — a program is written fragment by fragment.
* `Reading.Run.formatSource_eq` — the program as it is written is the formatted program.
-/

namespace Gcode

open Token (texts)

namespace Fragment

/-- The text of a fragment. -/
def written : Fragment → Except Layout.Unwritable Text
  | .lineBreak text | .comment text | .stray text => .ok text
  | .assignment target value =>
    (Layout.expression value).map fun text => Text.trimRight (target ++ " = " ++ text)
  | .header head => Layout.header head
  | .commands nodes => Layout.commands nodes
  | .tail nodes => (Layout.commands nodes).map (' ' :: ·)

/-- The fragment is blank text. At the start of a line, it stays as it is. -/
def isBlankText : Fragment → Bool
  | .stray text => Text.isBlankOnly text
  | _ => false

/-- The fragment is put on the page as it is, even if it opens a statement. -/
def stays (page : Layout.Page) (f : Fragment) : Bool := f.isBlankText && page.atLineStart

end Fragment

namespace Layout

/-- Putting the fragments on a page, each that opens a statement at some level, gives the page. -/
inductive Writes (width : Nat) : Page → List Fragment → Page → Prop
  | nil (page : Page) : Writes width page [] page
  | put {page last : Page} {f : Fragment} {fs : List Fragment} {text : Text} :
    f.written = .ok text → f.opens = false ∨ f.stays page = true →
    Writes width (page.put text) fs last → Writes width page (f :: fs) last
  | opened {page last : Page} {f : Fragment} {fs : List Fragment} {text : Text} (level : Nat) :
    f.written = .ok text → f.opens = true → f.stays page = false →
    Writes width ((page.beginStatement width level).put text) fs last →
    Writes width page (f :: fs) last

namespace Writes

variable {width : Nat}

theorem append {page middle last : Page} {fs gs : List Fragment} (h : Writes width page fs middle)
    (k : Writes width middle gs last) : Writes width page (fs ++ gs) last := by
  induction h with
  | nil => exact k
  | put hw ho _ ih => exact .put hw ho (ih k)
  | opened level hw ho hs _ ih => exact .opened level hw ho hs (ih k)

theorem single_put {page : Page} {f : Fragment} {text : Text} (hw : f.written = .ok text)
    (ho : f.opens = false ∨ f.stays page = true) : Writes width page [f] (page.put text) :=
  .put hw ho (.nil _)

theorem single_opened {page : Page} {f : Fragment} {text : Text} (level : Nat)
    (hw : f.written = .ok text) (ho : f.opens = true) (hs : f.stays page = false) :
    Writes width page [f] ((page.beginStatement width level).put text) :=
  .opened level hw ho hs (.nil _)

end Writes

end Layout

namespace Reading

variable {cut : Prop}

/-! ## Expressions, headers and commands can be written -/

theorem Expression.expression_eq_ok {n : Option Node} {ahead rest : List Token}
    (h : Expression cut n ahead rest) : ∃ text, Layout.expression n = .ok text :=
  h.text_eq_ok (fun _ => ⟨_, rfl⟩) (fun _ => ⟨_, rfl⟩) (fun _ _ => ⟨_, rfl⟩)

theorem Command.expression_eq_ok {n : Node} {ahead rest : List Token}
    (h : Command cut n ahead rest) : ∃ text, Layout.expression (some n) = .ok text := by
  cases h with
  | comment | stray =>
    simp only [Layout.expression, Style.text_eq_plainText?]
    exact ⟨_, rfl⟩
  | expression h => exact h.expression_eq_ok

theorem commandTexts_eq_ok {nodes : List Node} {ahead rest : List Token}
    (h : Series (Command cut) nodes ahead rest) :
    ∃ texts, Layout.commandTexts (nodes.map some) = .ok texts := by
  induction h with
  | nil => exact ⟨_, rfl⟩
  | cons hc _ ih =>
    obtain ⟨text, hc⟩ := hc.expression_eq_ok
    obtain ⟨texts, ih⟩ := ih
    refine ⟨text :: texts, ?_⟩
    rw [List.map_cons, Layout.commandTexts, hc, ih]
    rfl

theorem Header.header_eq_ok {n : Node} {ahead rest : List Token} (h : Header cut n ahead rest) :
    ∃ text, Layout.header (some n) = .ok text := by
  cases h with
  | bare _ hl =>
    obtain ⟨text, hl⟩ := hl.expression_eq_ok
    exact ⟨_, by rw [Layout.header, hl]; rfl⟩
  | @keyed t u label condition _ _ _ _ hl _ hc =>
    obtain ⟨text, hl⟩ := hl.expression_eq_ok
    obtain ⟨text', hc⟩ := hc.expression_eq_ok
    cases condition with
    | none => exact ⟨_, by rw [Layout.header, hl]; rfl⟩
    | some condition => exact ⟨_, by rw [Layout.header, hl]; simp only [hc]; rfl⟩

/-! ## The tokens of a fragment -/

variable (cut) in
/-- The fragment stands for the first tokens of a list. -/
inductive Piece : Fragment → List Token → List Token → Prop
  | lineBreak {t : Token} (rest : List Token) : t.kind = .endOfLine →
    Piece (.lineBreak t.value) (t :: rest) rest
  | comment {t : Token} (rest : List Token) : t.kind = .comment →
    Piece (.comment t.value) (t :: rest) rest
  | stray {used ahead rest : List Token} : used ≠ [] → ahead = used ++ rest → OnLine used →
    AtLineEnd rest → Piece (.stray (texts used)) ahead rest
  | assignment {t u : Token} {value : Option Node} {ahead rest : List Token} :
    t.kind = .parameter → u.kind = .assign → Expression cut value ahead rest →
    Piece (.assignment t.value value) (t :: u :: ahead) rest
  | header {node : Node} {ahead rest : List Token} : Header cut node ahead rest →
    Piece (.header (some node)) ahead rest
  | commands {nodes : List Node} {ahead rest : List Token} : nodes ≠ [] →
    (∀ t ∈ ahead.head?, t.kind ≠ .unknown) → Series (Command cut) nodes ahead rest →
    Piece (.commands (nodes.map some)) ahead rest
  | tail {nodes : List Node} {ahead rest : List Token} : nodes ≠ [] →
    Series (Command cut) nodes ahead rest → Piece (.tail (nodes.map some)) ahead rest

theorem tail_pieces {nodes : List Node} {ahead rest : List Token}
    (h : Series (Command cut) nodes ahead rest) :
    Series (Piece cut) (Node.tail (some (.commandLine (nodes.map some)))) ahead rest := by
  cases nodes with
  | nil =>
    cases h
    exact .nil ahead
  | cons n ns => exact .single (.tail (by simp) h)

theorem Simple.pieces {n : Node} {ahead rest : List Token} (h : Simple cut n ahead rest) :
    Series (Piece cut) n.fragments ahead rest := by
  cases h with
  | lineBreak rest hk => exact .single (.lineBreak rest hk)
  | comment rest hk => exact .single (.comment rest hk)
  | stray line hne hused hline hend => exact .single (.stray hne hused hline hend)
  | assignment ht hu h => exact .single (.assignment ht hu h)
  | @commands nodes _ _ hne hhead h =>
    rw [Node.fragments, if_neg (by simpa using hne)]
    exact .single (.commands hne hhead h)
  | flat hh hc => exact .cons (.header hh) (tail_pieces hc)

theorem Closing.pieces {n : Option Node} {ahead rest : List Token}
    (h : Closing cut n ahead rest) :
    Series (Piece cut) (n.map fun node => Fragment.header (some node)).toList ahead rest := by
  cases h with
  | missing => exact .nil ahead
  | header h => exact .single (.header h)

/-- Statements are read fragment by fragment. -/
theorem Statements.pieces {nodes : List Node} {ahead rest : List Token}
    (h : Statements cut nodes ahead rest) :
    Series (Piece cut) (Node.fragmentsOf (nodes.map some)) ahead rest := by
  induction h with
  | nil => exact .nil _
  | simple h _ ih => exact h.pieces.append ih
  | block hh _ hc _ ihbody ih =>
    exact .append (.append (.cons (.header hh) ihbody) hc.pieces) ih

theorem Piece.written_eq_ok {f : Fragment} {ahead rest : List Token}
    (h : Piece cut f ahead rest) : ∃ text, f.written = .ok text := by
  cases h with
  | lineBreak | comment | stray => exact ⟨_, rfl⟩
  | assignment _ _ h =>
    obtain ⟨text, h⟩ := h.expression_eq_ok
    exact ⟨_, by rw [Fragment.written, h]; rfl⟩
  | header h => exact h.header_eq_ok
  | commands _ _ h | tail _ h =>
    obtain ⟨texts, h⟩ := commandTexts_eq_ok h
    exact ⟨_, by rw [Fragment.written, Layout.commands, h]; rfl⟩

/-- A fragment takes a token. -/
theorem Piece.length_lt {f : Fragment} {ahead rest : List Token} (h : Piece cut f ahead rest) :
    rest.length < ahead.length := by
  cases h with
  | lineBreak | comment => exact Nat.lt_succ_self _
  | stray hne hused _ _ =>
    have hpos := List.length_pos_iff.mpr hne
    rw [hused, List.length_append]
    omega
  | assignment _ _ h =>
    have hle := h.suffix.length_le
    rw [List.length_cons, List.length_cons]
    omega
  | header h =>
    cases h with
    | bare _ hl => exact Nat.lt_succ_of_le hl.suffix.length_le
    | keyed _ hl _ hc =>
      have hlel := hl.suffix.length_le
      have hlec := hc.suffix.length_le
      rw [List.length_cons] at hlel ⊢
      omega
  | commands hne _ h | tail hne h => exact length_commands_lt h hne

/-! ## What stands behind a header -/

/-- What stands behind a header does not stand behind a line break. -/
def Joins (a b : Fragment) : Prop := b.isTail = true → a.isLineBreak = false

theorem joins_append {fs gs : List Fragment} (h : (.lineBreak [] :: fs).IsChain Joins)
    (k : (.lineBreak [] :: gs).IsChain Joins) : (.lineBreak [] :: (fs ++ gs)).IsChain Joins := by
  rw [← List.cons_append, List.isChain_append]
  refine ⟨h, k.tail, fun a _ b hb hbt => ?_⟩
  obtain ⟨gs, rfl⟩ := List.head?_eq_some_iff.mp hb
  exact absurd ((List.isChain_cons_cons.mp k).1 hbt) (by simp [Fragment.isLineBreak])

theorem Simple.joins {n : Node} {ahead rest : List Token} (h : Simple cut n ahead rest) :
    (.lineBreak [] :: n.fragments).IsChain Joins := by
  cases h with
  | lineBreak | comment | stray | assignment =>
    simp [Node.fragments, Joins, Fragment.isTail]
  | @commands nodes _ _ hne =>
    simp [Node.fragments, hne, Joins, Fragment.isTail]
  | @flat header nodes _ _ _ hh hc =>
    cases nodes with
    | nil => simp [Node.fragments, Node.tail, Joins, Fragment.isTail]
    | cons n nodes =>
      simp [Node.fragments, Node.tail, Joins, Fragment.isTail, Fragment.isLineBreak]

theorem Statements.joins {nodes : List Node} {ahead rest : List Token}
    (h : Statements cut nodes ahead rest) :
    (.lineBreak [] :: Node.fragmentsOf (nodes.map some)).IsChain Joins := by
  induction h with
  | nil => exact .singleton _
  | simple h _ ih => exact joins_append h.joins ih
  | @block _ _ _ _ closing _ _ _ _ _ _ _ _ _ _ _ ihbody ih =>
    have hheader : ∀ head, (.lineBreak [] :: [Fragment.header head]).IsChain Joins := by
      intro head
      simp [Joins, Fragment.isTail]
    have hclosing : (.lineBreak [] :: (closing.map fun node =>
        Fragment.header (some node)).toList).IsChain Joins := by
      cases closing with
      | none => exact .singleton _
      | some node => exact hheader (some node)
    exact joins_append (joins_append (joins_append (hheader _) ihbody) hclosing) ih

/-! ## Statements on a page -/

section Page

variable (width : Nat)

/-- A fragment that opens a statement is put on the page. -/
theorem writes_opened (f : Fragment) {text : Text} (hw : f.written = .ok text)
    (ho : f.opens = true) (page : Layout.Page) (hs : f.stays page = false) (level : Nat) :
    ∃ last, Layout.put width level page f.written = .ok last ∧
      Layout.Writes width page [f] last := by
  refine ⟨(page.beginStatement width level).put text, ?_, .single_opened level hw ho hs⟩
  rw [hw]
  rfl

/-- The commands behind a header are put on the page. -/
theorem tail_writes {nodes : List Node} {ahead rest : List Token}
    (h : Series (Command cut) nodes ahead rest) (page : Layout.Page) :
    ∃ text, Layout.commandsBehind (some (.commandLine (nodes.map some))) = .ok text ∧
      Layout.Writes width page (Node.tail (some (.commandLine (nodes.map some))))
        (if text.isEmpty then page else page.put text) := by
  cases nodes with
  | nil => exact ⟨[], rfl, .nil page⟩
  | cons n ns =>
    obtain ⟨text, hw⟩ := (Piece.tail (by simp) h).written_eq_ok
    have hbehind : Layout.commandsBehind (some (.commandLine ((n :: ns).map some))) = .ok text := hw
    have hne : text.isEmpty = false := by
      rw [Fragment.written] at hw
      cases hc : Layout.commands ((n :: ns).map some) with
      | error e => rw [hc] at hw; cases hw
      | ok t => rw [hc] at hw; cases hw; rfl
    refine ⟨text, hbehind, ?_⟩
    rw [hne]
    exact .single_put hw (.inl rfl)

/-- Stray text can be put on any page. -/
theorem stray_writes (text : Text) (line : Int) (level : Nat) (page : Layout.Page) :
    ∃ last, Layout.statement width level page (.unknown text line) = .ok last ∧
      Layout.Writes width page [.stray text] last := by
  rw [Layout.statement]
  by_cases hs : (Text.isBlankOnly text && page.atLineStart) = true
  · rw [if_pos hs]
    exact ⟨_, rfl, .single_put rfl (.inr hs)⟩
  · rw [if_neg hs]
    rw [Bool.not_eq_true] at hs
    exact writes_opened width (.stray text) rfl rfl page hs level

theorem Simple.writes {n : Node} {ahead rest : List Token} (h : Simple cut n ahead rest)
    (level : Nat) (page : Layout.Page) :
    ∃ last, Layout.statement width level page n = .ok last ∧
      Layout.Writes width page n.fragments last := by
  cases h with
  | lineBreak => exact ⟨_, by rw [Layout.statement], .single_put rfl (.inl rfl)⟩
  | comment =>
    rw [Layout.statement]
    exact writes_opened width (.comment _) rfl rfl page rfl level
  | @stray used _ _ line => exact stray_writes width (texts used) line level page
  | assignment ht hu h =>
    obtain ⟨text, hw⟩ := (Piece.assignment ht hu h).written_eq_ok
    rw [Layout.statement]
    exact writes_opened width _ hw rfl page rfl level
  | @commands nodes _ _ hne hhead h =>
    obtain ⟨text, hw⟩ := (Piece.commands hne hhead h).written_eq_ok
    have hnil : (nodes.map some).isEmpty = false := by simpa using hne
    rw [Layout.statement, Node.fragments, hnil]
    exact writes_opened width _ hw rfl page rfl level
  | flat hh hc =>
    obtain ⟨text, hw⟩ := (Piece.header hh).written_eq_ok
    obtain ⟨middle, hput, hhead⟩ := writes_opened width _ hw rfl page rfl level
    obtain ⟨behind, hbehind, htail⟩ := tail_writes width hc middle
    refine ⟨_, ?_, hhead.append htail⟩
    rw [Fragment.written] at hput
    rw [Layout.statement, hput]
    simp only [bind, Except.bind, hbehind]
    rfl

theorem Simple.beginsBranch_eq_ok {n : Node} {ahead rest : List Token}
    (h : Simple cut n ahead rest) : ∃ b, Layout.beginsBranch (some n) = .ok b := by
  cases h with
  | lineBreak | comment | stray | assignment | commands => exact ⟨_, rfl⟩
  | flat hh _ => cases hh <;> exact ⟨_, rfl⟩

/-- A level is given to every node of which it is known whether it begins a branch. -/
def Levels (level : Option Node → Except Layout.Unwritable Nat) : Prop :=
  ∀ n b, Layout.beginsBranch n = .ok b → ∃ l, level n = .ok l

theorem levels_bodyLevel (keyword : Text) (level : Nat) :
    Levels (Layout.bodyLevel keyword level) := by
  intro n b hb
  unfold Layout.bodyLevel
  split
  · exact ⟨_, by rw [hb]; rfl⟩
  · exact ⟨_, rfl⟩

/-- Statements are written fragment by fragment. -/
theorem Statements.writes {nodes : List Node} {ahead rest : List Token}
    (h : Statements cut nodes ahead rest) {level : Option Node → Except Layout.Unwritable Nat}
    (hlevel : Levels level) (page : Layout.Page) :
    ∃ last, Layout.statements width level page (nodes.map some) = .ok last ∧
      Layout.Writes width page (Node.fragmentsOf (nodes.map some)) last := by
  induction h generalizing level page with
  | nil => exact ⟨page, rfl, .nil page⟩
  | @simple node nodes _ _ _ h _ ih =>
    obtain ⟨b, hb⟩ := h.beginsBranch_eq_ok
    obtain ⟨l, hl⟩ := hlevel _ _ hb
    obtain ⟨middle, hmiddle, hfirst⟩ := h.writes width l page
    obtain ⟨last, hlast, hrest⟩ := ih hlevel middle
    refine ⟨last, ?_, hfirst.append hrest⟩
    rw [List.map_cons, Layout.statements, hl]
    simp only [bind, Except.bind, Layout.statement?, hmiddle]
    exact hlast
  | @block oWord keyword label condition closing body nodes _ _ _ _ _ hh _ hc _ ihbody ih =>
    obtain ⟨l, hl⟩ := hlevel (some (.block keyword
      (some (.header oWord label keyword condition)) (body.map some) closing)) false rfl
    obtain ⟨text, hw⟩ := (Piece.header hh).written_eq_ok
    obtain ⟨opened, hopened, hhead⟩ := writes_opened width _ hw rfl page rfl l
    obtain ⟨inside, hinside, hbody⟩ := ihbody (levels_bodyLevel keyword l) opened
    rw [Fragment.written] at hopened
    cases hc with
    | missing =>
      obtain ⟨last, hlast, hrest⟩ := ih hlevel inside
      refine ⟨last, ?_, ?_⟩
      · rw [List.map_cons, Layout.statements, hl]
        simp only [bind, Except.bind, Layout.statement?, Layout.statement, hopened, hinside]
        exact hlast
      · exact .append (.append (hhead.append hbody) (.nil inside)) hrest
    | @header node _ _ hclose =>
      obtain ⟨text', hw'⟩ := (Piece.header hclose).written_eq_ok
      obtain ⟨closed, hclosed, hend⟩ := writes_opened width _ hw' rfl inside rfl l
      obtain ⟨last, hlast, hrest⟩ := ih hlevel closed
      rw [Fragment.written] at hclosed
      refine ⟨last, ?_, ?_⟩
      · rw [List.map_cons, Layout.statements, hl]
        simp only [bind, Except.bind, Layout.statement?, Layout.statement, hopened, hinside,
          hclosed]
        exact hlast
      · exact .append (.append (hhead.append hbody) hend) hrest

theorem statements_append {level : Option Node → Except Layout.Unwritable Nat}
    {ns ms : List (Option Node)} {page middle : Layout.Page}
    (h : Layout.statements width level page ns = .ok middle) :
    Layout.statements width level page (ns ++ ms) = Layout.statements width level middle ms := by
  induction ns generalizing page with
  | nil =>
    rw [Layout.statements] at h
    cases h
    rfl
  | cons n ns ih =>
    rw [List.cons_append, Layout.statements]
    rw [Layout.statements] at h
    cases hl : level n with
    | error e => rw [hl] at h; cases h
    | ok l =>
      rw [hl] at h
      cases hp : Layout.statement? width l page n with
      | error e => simp only [bind, Except.bind, hp] at h; cases h
      | ok next =>
        simp only [bind, Except.bind, hp] at h ⊢
        exact ih h

theorem fragmentsOf_append (ns ms : List (Option Node)) :
    Node.fragmentsOf (ns ++ ms) = Node.fragmentsOf ns ++ Node.fragmentsOf ms := by
  induction ns with
  | nil => rfl
  | cons n ns ih => cases n <;> simp [Node.fragmentsOf, ih]

end Page

/-- A program that was read is written fragment by fragment. -/
theorem Program.writes (width : Int) {nodes : List Node} {ts : List Token}
    (h : Program cut nodes ts) :
    ∃ last, (⟨nodes.map some⟩ : Gcode.Program).page width = .ok last ∧
      Layout.Writes width.toNat .blank (Node.fragmentsOf (nodes.map some)) last := by
  have hlevel : Levels fun _ => .ok 0 := fun _ _ _ => ⟨0, rfl⟩
  cases h with
  | whole h => exact h.writes width.toNat hlevel .blank
  | @cutOff nodes _ rest line _ _ h =>
    obtain ⟨middle, hmiddle, hfirst⟩ := h.writes width.toNat hlevel .blank
    obtain ⟨last, hlast, hstray⟩ := stray_writes width.toNat (texts rest) line 0 middle
    refine ⟨last, ?_, ?_⟩
    · rw [Program.page, List.map_append, statements_append width.toNat hmiddle]
      simp only [List.map_cons, List.map_nil, Layout.statements, Layout.statement?, bind,
        Except.bind, hlast]
    · rw [List.map_append, fragmentsOf_append]
      exact hfirst.append hstray

end Reading

/-! ## Formatting -/

namespace Reading.Run

variable {source : Text} {limits : Limits}

/-- The program that was read, as it is written, is the formatted program. -/
theorem formatSource_eq (run : Run source limits) {width : Int} {t : Text}
    (h : run.read.program.written width = .ok t) :
    formatSource source ⟨width, limits, "ngc"⟩ = .ok ⟨t, run.read, t ≠ source⟩ := by
  have hformatter : Formatter.ofOptions [] ⟨width, limits, "ngc"⟩ =
      .ok ⟨.ngc, ⟨width, limits, "ngc"⟩⟩ := rfl
  have hformat : Formatter.format ⟨.ngc, ⟨width, limits, "ngc"⟩⟩ source =
      .ok ⟨t, run.read, t ≠ source⟩ := by
    simp only [Formatter.format, Formatter.read, run.readProgram_eq, Formatter.write,
      Program.writtenAs, h]
    simp
  simp only [formatSource, hformatter, hformat]

/-- The fragments of the program that was read. -/
def fragments (run : Run source limits) : List Fragment := Node.fragmentsOf (run.nodes.map some)

/-- The fragments of the program that was read fill the page that is written. -/
theorem writes (run : Run source limits) (width : Int) :
    ∃ page, Layout.Writes width.toNat .blank run.fragments page ∧
      run.read.program.written width = .ok page.text := by
  obtain ⟨page, hpage, hwrites⟩ := run.reads.writes width
  refine ⟨page, hwrites, ?_⟩
  rw [Program.written]
  simp only [Reading.Run.read, hpage]
  rfl

end Reading.Run

end Gcode
