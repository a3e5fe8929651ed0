import Gcode.Proofs.Layout.Reread

/-!
# Formatting without regard to case

Writing commutes with folding: what is written of a folded program is what is written of the
program, folded. Since lexing and parsing commute with folding too, two program texts that differ
in the case of ASCII letters only are read alike, reported on alike and formatted alike.

## Main definitions

* `Layout.Page.folded` — a page with all that is written on it folded.

## Main statements

* `Layout.statement_folded` — a folded statement is written on a folded page.
* `formatSource_caseless` — the case of letters makes no difference to how a program is formatted.
-/

namespace Gcode

open Node (folded folded? foldedOf)

namespace Layout

/-! ## The parts of a line -/

theorem caseless_style : style.Caseless where
  leaf {n text} h := by
    cases n <;> cases h <;> rfl
  brackets inner closed := by
    cases closed <;> simp [style]
  link left operator right := by
    simp only [style, ← Text.trim_folded, Text.folded_append]
    rfl

theorem expression_folded {n : Option Node} {text : Text} (h : expression n = .ok text) :
    expression (folded? n) = .ok (Text.folded text) := caseless_style.text_folded h

theorem header_folded {n : Option Node} {text : Text} (h : header n = .ok text) :
    header (folded? n) = .ok (Text.folded text) := by
  obtain ⟨oWord, label, keyword, condition, rfl⟩ := exists_header_of_ok h
  rw [header] at h
  obtain ⟨t, ht, h⟩ := bind_eq_ok.mp h
  rw [folded?, folded, header]
  refine bind_eq_ok.mpr ⟨_, expression_folded ht, ?_⟩
  have hkeyword : Text.folded (if keyword.isEmpty then [] else ' ' :: Text.lower keyword) =
      if keyword.isEmpty then [] else ' ' :: Text.lower keyword := by
    split <;> simp
  cases condition with
  | none =>
    cases h
    simp only [folded?, Text.folded_append, hkeyword]
    rfl
  | some condition =>
    obtain ⟨u, hu, h⟩ := bind_eq_ok.mp h
    cases h
    refine bind_eq_ok.mpr ⟨_, expression_folded hu, ?_⟩
    simp only [Text.folded_append, hkeyword]
    rfl

theorem commandTexts_folded {nodes : List (Option Node)} {texts : List Text}
    (h : commandTexts nodes = .ok texts) :
    commandTexts (foldedOf nodes) = .ok (texts.map Text.folded) := by
  induction nodes generalizing texts with
  | nil =>
    cases h
    rfl
  | cons node nodes ih =>
    rw [commandTexts] at h
    obtain ⟨text, htext, h⟩ := bind_eq_ok.mp h
    obtain ⟨more, hmore, h⟩ := bind_eq_ok.mp h
    cases h
    rw [foldedOf, commandTexts]
    exact bind_eq_ok.mpr ⟨_, expression_folded htext, bind_eq_ok.mpr ⟨_, ih hmore, rfl⟩⟩

theorem commands_folded {nodes : List (Option Node)} {text : Text}
    (h : commands nodes = .ok text) : commands (foldedOf nodes) = .ok (Text.folded text) := by
  obtain ⟨texts, htexts, rfl⟩ := map_eq_ok.mp h
  exact map_eq_ok.mpr ⟨_, commandTexts_folded htexts, Text.joined_folded " " texts⟩

theorem isEmpty_foldedOf (nodes : List (Option Node)) :
    (foldedOf nodes).isEmpty = nodes.isEmpty := by
  cases nodes <;> rfl

theorem commandsBehind_folded {n : Option Node} {text : Text} (h : commandsBehind n = .ok text) :
    commandsBehind (folded? n) = .ok (Text.folded text) := by
  match n with
  | some (.commandLine nodes) =>
    rw [commandsBehind] at h
    rw [folded?, folded, commandsBehind, isEmpty_foldedOf]
    split at h
    case isTrue hempty =>
      cases h
      rw [if_pos hempty]
      rfl
    case isFalse hempty =>
      obtain ⟨t, ht, rfl⟩ := map_eq_ok.mp h
      rw [if_neg hempty]
      exact map_eq_ok.mpr ⟨_, commands_folded ht, rfl⟩
  | some (.oStatement _ none) =>
    cases h
    rfl
  | none | some (.number _) | some (.parameter _) | some (.unknown _ _) | some (.comment _)
  | some (.endOfLine _) | some (.unary _ _) | some (.binary _ _ _) | some (.bracketed _ _)
  | some (.word _ _) | some (.call _ _) | some (.header _ _ _ _) | some (.oStatement _ (some _))
  | some (.assignment _ _) | some (.block _ _ _ _) | some (.program _) => cases h

/-! ## Pages -/

namespace Page

/-- The page with all that is written on it folded. -/
def folded (page : Page) : Page := ⟨page.pieces.map Text.folded⟩

@[simp] theorem text_folded (page : Page) : page.folded.text = Text.folded page.text := by
  rw [text, text, folded, ← List.map_reverse, Text.folded, List.map_flatten]
  rfl

@[simp] theorem put_folded (page : Page) (piece : Text) :
    page.folded.put (Text.folded piece) = (page.put piece).folded := rfl

@[simp] theorem atLineStart_folded (page : Page) : page.folded.atLineStart = page.atLineStart := by
  obtain ⟨pieces⟩ := page
  cases pieces with
  | nil => rfl
  | cons last pieces =>
    simp only [folded, atLineStart, List.map_cons, Text.folded, List.getLast?_map]
    cases List.getLast? last with
    | none => rfl
    | some c => exact Text.isBreak_toLower c

@[simp] theorem beginStatement_folded (page : Page) (width level : Nat) :
    page.folded.beginStatement width level = (page.beginStatement width level).folded := by
  obtain ⟨pieces⟩ := page
  have hspaces : ∀ n : Nat, Text.folded (List.replicate n ' ') = List.replicate n ' ' := by
    intro n
    simp [Text.folded]
  rw [beginStatement, beginStatement, atLineStart_folded]
  split
  · split
    · rfl
    · rw [← put_folded, hspaces]
  · cases pieces with
    | nil => rfl
    | cons last pieces => simp [folded]

end Page

theorem put_folded {width level : Nat} {page last : Page} {piece piece' : Except Unwritable Text}
    (hpiece : ∀ {text}, piece = .ok text → piece' = .ok (Text.folded text))
    (h : put width level page piece = .ok last) :
    put width level page.folded piece' = .ok last.folded := by
  obtain ⟨text, htext, rfl⟩ := map_eq_ok.mp h
  refine map_eq_ok.mpr ⟨_, hpiece htext, ?_⟩
  rw [Page.beginStatement_folded, Page.put_folded]

/-! ## Statements -/

theorem bodyLevel_folded (keyword : Text) (level : Nat) (n : Option Node) :
    bodyLevel keyword level (folded? n) = bodyLevel keyword level n := by
  have hbranch : beginsBranch (folded? n) = beginsBranch n := by
    match n with
    | some (.oStatement (some head) _) => cases head <;> rfl
    | none | some (.number _) | some (.parameter _) | some (.unknown _ _) | some (.comment _)
    | some (.endOfLine _) | some (.unary _ _) | some (.binary _ _ _) | some (.bracketed _ _)
    | some (.word _ _) | some (.call _ _) | some (.header _ _ _ _) | some (.oStatement none _)
    | some (.commandLine _) | some (.assignment _ _) | some (.block _ _ _ _)
    | some (.program _) => rfl
  rw [bodyLevel, bodyLevel, hbranch]

variable {width : Nat}

mutual

theorem statement_folded (level : Nat) (page : Page) (n : Node) {last : Page}
    (h : statement width level page n = .ok last) :
    statement width level page.folded (folded n) = .ok last.folded := by
  match n with
  | .endOfLine text =>
    cases h
    rfl
  | .comment text => exact put_folded (fun ht => by cases ht; rfl) h
  | .unknown text line =>
    rw [statement] at h
    rw [folded, statement, Text.isBlankOnly_folded, Page.atLineStart_folded]
    split at h
    case isTrue hblank =>
      cases h
      rw [if_pos hblank]
      rfl
    case isFalse hblank =>
      rw [if_neg hblank]
      exact put_folded (fun ht => by cases ht; rfl) h
  | .assignment target value =>
    rw [statement] at h
    rw [folded, statement]
    refine put_folded (fun htext => ?_) h
    obtain ⟨t, ht, rfl⟩ := map_eq_ok.mp htext
    refine map_eq_ok.mpr ⟨_, expression_folded ht, ?_⟩
    rw [← Text.trimRight_folded]
    simp only [Text.folded_append]
    rfl
  | .commandLine nodes =>
    rw [statement] at h
    rw [folded, statement, isEmpty_foldedOf]
    split at h
    case isTrue hempty =>
      cases h
      rw [if_pos hempty]
    case isFalse hempty =>
      rw [if_neg hempty]
      exact put_folded commands_folded h
  | .oStatement head line =>
    rw [statement] at h
    obtain ⟨page', hhead, h⟩ := bind_eq_ok.mp h
    obtain ⟨text, htext, h⟩ := bind_eq_ok.mp h
    rw [folded, statement]
    refine bind_eq_ok.mpr ⟨_, put_folded header_folded hhead, ?_⟩
    refine bind_eq_ok.mpr ⟨_, commandsBehind_folded htext, ?_⟩
    cases h
    rw [Text.isEmpty_folded]
    split <;> rfl
  | .block keyword head body closing =>
    rw [statement] at h
    obtain ⟨page', hhead, h⟩ := bind_eq_ok.mp h
    obtain ⟨page'', hbody, h⟩ := bind_eq_ok.mp h
    rw [folded, statement]
    have hbody' := statements_folded (bodyLevel_folded keyword level) page' body hbody
    refine bind_eq_ok.mpr ⟨_, put_folded header_folded hhead, bind_eq_ok.mpr ⟨_, hbody', ?_⟩⟩
    cases closing with
    | none =>
      cases h
      rfl
    | some closing => exact put_folded header_folded h
  | .number _ | .parameter _ | .unary _ _ | .binary _ _ _ | .bracketed _ _ | .word _ _ | .call _ _
  | .header _ _ _ _ | .program _ => cases h

theorem statement?_folded (level : Nat) (page : Page) (n : Option Node) {last : Page}
    (h : statement? width level page n = .ok last) :
    statement? width level page.folded (folded? n) = .ok last.folded := by
  match n with
  | none => cases h
  | some n => exact statement_folded level page n h

theorem statements_folded {level : Option Node → Except Unwritable Nat}
    (hlevel : ∀ n, level (folded? n) = level n) (page : Page) (nodes : List (Option Node))
    {last : Page} (h : statements width level page nodes = .ok last) :
    statements width level page.folded (foldedOf nodes) = .ok last.folded := by
  match nodes with
  | [] =>
    cases h
    rfl
  | n :: nodes =>
    rw [statements] at h
    obtain ⟨l, hl, h⟩ := bind_eq_ok.mp h
    obtain ⟨page', hpage, h⟩ := bind_eq_ok.mp h
    rw [foldedOf, statements]
    refine bind_eq_ok.mpr ⟨l, (hlevel n).trans hl, ?_⟩
    exact bind_eq_ok.mpr ⟨_, statement?_folded l page n hpage,
      statements_folded hlevel page' nodes h⟩

end

end Layout

/-- A folded program is written as the program is, but folded. -/
theorem Program.written_folded {program : Program} {width : Int} {text : Text}
    (h : program.written width = .ok text) :
    program.folded.written width = .ok (Text.folded text) := by
  obtain ⟨page, hpage, rfl⟩ := map_eq_ok.mp h
  refine map_eq_ok.mpr ⟨page.folded, ?_, page.text_folded⟩
  exact Layout.statements_folded (fun _ => rfl) .blank program.statements hpage

/-! ## Formatting -/

/-- Program texts that differ in the case of ASCII letters only have the same tokens up to case, on
the same lines. They are read as the same tree up to case, with the same problems on the same
lines, and are formatted as the same text up to case. -/
theorem formatSource_caseless {source text : Text} (h : Text.folded text = Text.folded source)
    (width : Int) (limits : Limits) :
    ∃ ts ts' result result', tokens source = .ok ts ∧ tokens text = .ok ts' ∧
      ts'.map Token.folded = ts.map Token.folded ∧
      readProgram source limits = .ok result.read ∧ readProgram text limits = .ok result'.read ∧
      result'.read.program.folded = result.read.program.folded ∧
      result'.read.diagnostics.map (fun d => (d.kind, d.line)) =
        result.read.diagnostics.map (fun d => (d.kind, d.line)) ∧
      formatSource source ⟨width, limits, "ngc"⟩ = .ok result ∧
      formatSource text ⟨width, limits, "ngc"⟩ = .ok result' ∧
      Text.folded result'.text = Text.folded result.text := by
  obtain ⟨run⟩ := Reading.nonempty_run source limits
  obtain ⟨run'⟩ := Reading.nonempty_run text limits
  have hcompact := folded_compact_eq h
  obtain ⟨t, hwritten, -⟩ := run.lays width
  obtain ⟨t', hwritten', -⟩ := run'.lays width
  obtain ⟨hprogram, -⟩ := run.folded_eq run' hcompact
  have htext := Program.written_folded hwritten'
  rw [hprogram, Program.written_folded hwritten] at htext
  exact ⟨_, _, _, _, tokens_of_run run.run_eq, tokens_of_run run'.run_eq,
    (run.tokens_folded_eq run' hcompact).1, run.readProgram_eq, run'.readProgram_eq, hprogram,
    run.diagnostics_eq run' hcompact, run.formatSource_eq hwritten,
    run'.formatSource_eq hwritten', (Except.ok.inj htext).symm⟩

/-- The label and the keywords of a block may be in any case. -/
theorem formatSource_caseless_block :
    Text.folded "O<a> If [1]
G1 x2
O<A> ENDIF
" = Text.folded "o<A> if [1]
g1 X2
o<a> endif
" ∧
    ∃ result result', formatSource "o<A> if [1]
g1 X2
o<a> endif
" {} = .ok result ∧
      formatSource "O<a> If [1]
G1 x2
O<A> ENDIF
" {} = .ok result' ∧
      result'.read.program.folded = result.read.program.folded ∧
      Text.folded result'.text = Text.folded result.text := by
  have h : Text.folded "O<a> If [1]
G1 x2
O<A> ENDIF
" =
      Text.folded "o<A> if [1]
g1 X2
o<a> endif
" := by decide
  obtain ⟨_, _, result, result', -, -, -, -, -, hprogram, -, hresult, hresult', htext⟩ :=
    formatSource_caseless h 2 {}
  exact ⟨h, result, result', hresult, hresult', hprogram, htext⟩

end Gcode
