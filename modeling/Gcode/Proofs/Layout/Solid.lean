import Gcode.Proofs.Layout.Level

/-!
# Nothing but white space

Writing a program adds and takes away nothing but white space. This needs no parser: it holds of
every tree that can be written, whatever its texts are and whatever is missing in it, as long as
what stands behind the header of a statement is a line of commands.

## Main statements

* `Layout.Places.solid_text` — what a page holds of its fragments but white space.
* `Program.solid_written` — a written program holds the texts of its tree but white space.
-/

namespace Gcode

open Node (Lined LinedOf)

namespace Layout

variable {width : Nat}

/-! ## Pages -/

/-- Where a statement begins, nothing but white space is put or trimmed away. -/
theorem solid_beginStatement (width level : Nat) (page : Page) :
    (page.beginStatement width level).text.solid = page.text.solid := by
  have hspaces : ∀ n, Text.solid (List.replicate n ' ') = [] := by
    intro n
    rw [← Text.solid_ink, Text.ink_replicate_space]
    rfl
  cases hstart : page.atLineStart with
  | true =>
    obtain ⟨n, hn⟩ := text_beginStatement width level hstart
    rw [hn, Text.solid_append, hspaces, List.append_nil]
  | false =>
    cases hpieces : page.pieces with
    | nil => simp [Page.atLineStart, hpieces] at hstart
    | cons text pieces =>
      have htext : page.text = Page.text ⟨pieces⟩ ++ text := by
        rw [← Page.text_put, Page.put, ← hpieces]
      rw [text_beginStatement_of_not width level hstart hpieces htext, htext, Text.solid_append,
        Text.solid_append, Text.solid_append, Text.solid_trimRight]
      exact List.append_nil _

/-- But for white space, a page holds the texts of the fragments that were put on it. -/
theorem Places.solid_text {page last : Page} {fs : List (Nat × Fragment)}
    (h : Places width page fs last) :
    last.text.solid =
      page.text.solid ++ Text.solid ((fs.map Prod.snd).flatMap Fragment.unspaced) := by
  have hput : ∀ {page : Page} {f : Fragment} {text : Text}, f.written = .ok text →
      (page.put text).text.solid = page.text.solid ++ f.unspaced.solid := by
    intro page f text hw
    rw [Page.text_put, Text.solid_append, (Fragment.keeps_written hw).solid_eq]
  induction h with
  | nil page => exact (List.append_nil _).symm
  | put level hw _ _ ih =>
    rw [ih, hput hw, List.map_cons, List.flatMap_cons, Text.solid_append, List.append_assoc]
  | opened hw _ _ _ ih =>
    rw [ih, hput hw, solid_beginStatement, List.map_cons, List.flatMap_cons, Text.solid_append,
      List.append_assoc]

/-! ## The texts of a tree -/

mutual

/-- The fragments of a statement that can be written hold all of its texts. -/
theorem parts_fragments {level : Nat} {page last : Page} (n : Node) (hn : Lined n)
    (h : statement width level page n = .ok last) :
    n.fragments.flatMap Fragment.parts = n.parts := by
  match n with
  | .endOfLine _ | .comment _ | .unknown _ _ | .assignment _ _ =>
    simp [Node.fragments, Node.parts, Fragment.parts]
  | .commandLine nodes =>
    cases nodes <;> simp [Node.fragments, Node.parts, Fragment.parts, Node.partsOf]
  | .oStatement head line =>
    obtain ⟨nodes, rfl⟩ := hn
    cases nodes <;>
      simp [Node.fragments, Node.tail, Node.parts, Node.parts?, Fragment.parts, Node.partsOf]
  | .block keyword head body closing =>
    rw [statement] at h
    obtain ⟨opened, -, hrest⟩ := bind_eq_ok.mp h
    obtain ⟨inside, hbody, -⟩ := bind_eq_ok.mp hrest
    have hparts := parts_fragmentsOf body hn hbody
    cases closing <;> simp [Node.fragments, Node.parts, Node.parts?, Fragment.parts, hparts]

theorem parts_fragmentsOf {level : Option Node → Except Unwritable Nat} {page last : Page}
    (nodes : List (Option Node)) (hnodes : LinedOf nodes)
    (h : statements width level page nodes = .ok last) :
    (Node.fragmentsOf nodes).flatMap Fragment.parts = Node.partsOf nodes := by
  match nodes with
  | [] => rfl
  | node :: nodes =>
    rw [statements] at h
    obtain ⟨l, -, hnode⟩ := bind_eq_ok.mp h
    obtain ⟨middle, hmiddle, hrest⟩ := bind_eq_ok.mp hnode
    cases node with
    | none => cases hmiddle
    | some node =>
      rw [Node.fragmentsOf, List.flatMap_append, parts_fragments node hnodes.1 hmiddle,
        parts_fragmentsOf nodes hnodes.2 hrest]
      rfl

end

end Layout

/-- Of every tree in which lines of commands stand behind the headers of statements, and which can
be written: but for white space, the written program is the text of its tree, read from left to
right. -/
theorem Program.solid_written {program : Program} (hlined : LinedOf program.statements)
    {width : Int} {text : Text} (h : program.written width = .ok text) :
    text.solid = (Node.unspaced (some program.node)).solid := by
  obtain ⟨page, hpage, rfl⟩ := map_eq_ok.mp h
  have hplaces := Layout.statements_places program.statements hlined
    Layout.levelsIn_outermost hpage
  have hparts := Layout.parts_fragmentsOf program.statements hlined hpage
  have hunspaced : (Node.fragmentsOf program.statements).flatMap Fragment.unspaced =
      Node.unspaced (some program.node) := by
    rw [Node.unspaced, Program.node, Node.parts?, Node.parts, ← hparts, List.flatMap_assoc]
    rfl
  rw [hplaces.solid_text, Node.map_snd_leveledOf, hunspaced]
  rfl

/-- A block that is not closed, with a bracket that is not, an operator without its left operand,
white space that is no blank, and a branch without a label. -/
theorem Program.solid_written_degenerate :
    ∃ program : Program, LinedOf program.statements ∧
      program.written 2 = .ok "o1 if [+ 2 \u00a0\nO else".toList ∧
      Text.solid "o1 if [+ 2 \u00a0\nO else" = (Node.unspaced (some program.node)).solid := by
  let program : Program := ⟨[some (.block "IF" (some (.header "o" (some (.number "1")) "IF"
    (some (.bracketed (some (.binary "+" none (some (.number "2")))) false))))
    [some (.unknown "\u00a0" 1), some (.endOfLine "\n"),
      some (.oStatement (some (.header "O" none "ELSE" none)) (some (.commandLine [])))] none)]⟩
  have hlined : LinedOf program.statements := by simp [program, LinedOf, Lined]
  have hwritten : program.written 2 = .ok "o1 if [+ 2 \u00a0\nO else".toList := by
    simp only [program, Program.written, Program.page, Layout.statements, Layout.statement?,
      Layout.statement, Layout.put, Layout.header, Layout.expression, Style.text_eq_plainText?]
    rfl
  exact ⟨program, hlined, hwritten, program.solid_written hlined hwritten⟩

end Gcode
