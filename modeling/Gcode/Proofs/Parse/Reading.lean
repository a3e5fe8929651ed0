import Gcode.Parse.Statement
import Gcode.Proofs.Token.Bracket

/-!
# How nodes are read from tokens

A node is read from a token list if the first tokens of the list, in order, make up the node; the
tokens behind them are left. The rules say nothing of precedence or of the choices of the parser:
they say which tokens a part of a tree may stand for. Text that a guard cut off stands for any
tokens that close no bracket but their own; it may occur only if `cut` holds.

## Main definitions

* `Reading.Expression`, `Reading.Command`, `Reading.Header` — parts of statements.
* `Reading.Series` — items read one behind the other.
* `Reading.Simple`, `Reading.Statements`, `Reading.Program` — statements, and all of them.
* `Guarded` — whether a limit was reported.

## Main statements

* `Reading.Expression.exists_used` — what holds of the tokens that an expression takes.
* `Reading.Expression.label_eq_ok` — an expression that is read can be compared as a label.
-/

namespace Gcode

/-- Some limit on nesting or on the rounds of a loop was reported. -/
def Guarded (reports : List Report) : Prop := ∃ r ∈ reports, r.kind = .livenessGuard

@[simp] theorem guarded_append (rs ss : List Report) :
    Guarded (rs ++ ss) ↔ Guarded rs ∨ Guarded ss := by
  simp [Guarded, or_and_right, exists_or]

theorem guarded_cons (r : Report) (rs : List Report) :
    Guarded (r :: rs) ↔ r.kind = .livenessGuard ∨ Guarded rs := by
  simp [Guarded]

namespace Reading

open Token (texts openings closings)

variable (cut : Prop)

/-- No line ends among the tokens. -/
def OnLine (ts : List Token) : Prop := ∀ t ∈ ts, t.kind ≠ .endOfLine

/-- The expression stands for the first tokens of `ahead`, behind which `rest` is left. -/
inductive Expression : Option Node → List Token → List Token → Prop
  /-- A missing expression stands for no token. -/
  | missing (ahead : List Token) : Expression none ahead ahead
  | number {t : Token} (rest : List Token) : t.kind = .number →
    Expression (some (.number t.value)) (t :: rest) rest
  | parameter {t : Token} (rest : List Token) : t.kind = .parameter →
    Expression (some (.parameter t.value)) (t :: rest) rest
  | word {t : Token} {value : Option Node} {ahead rest : List Token} : t.kind = .word →
    Expression value ahead rest → Expression (some (.word t.value value)) (t :: ahead) rest
  | call {t : Token} {argument : Option Node} {ahead rest : List Token} : t.kind = .function →
    Expression argument ahead rest → Expression (some (.call t.value argument)) (t :: ahead) rest
  | unary {t : Token} {operand : Option Node} {ahead rest : List Token} :
    Parse.isOperator t = true → Expression operand ahead rest →
    Expression (some (.unary t.value operand)) (t :: ahead) rest
  | binary {t : Token} {left right : Option Node} {ahead behind rest : List Token} :
    Parse.isOperator t = true → Expression left ahead (t :: behind) →
    Expression right behind rest → Expression (some (.binary t.value left right)) ahead rest
  | closed {t u : Token} {inner : Option Node} {ahead rest : List Token} :
    t.kind = .openBracket → u.kind = .closeBracket → Expression inner ahead (u :: rest) →
    Expression (some (.bracketed inner true)) (t :: ahead) rest
  /-- A bracket is left open only where no closing one is next. -/
  | unclosed {t : Token} {inner : Option Node} {ahead rest : List Token} :
    t.kind = .openBracket → (∀ u ∈ rest.head?, u.kind ≠ .closeBracket) →
    Expression inner ahead rest → Expression (some (.bracketed inner false)) (t :: ahead) rest
  | cutOff {used ahead rest : List Token} (line : Int) : cut → ahead = used ++ rest →
    OnLine used → closings used ≤ openings used →
    Expression (some (.unknown (texts used) line)) ahead rest

/-- What is left of a line is nothing. -/
def AtLineEnd (rest : List Token) : Prop := ∀ t ∈ rest.head?, t.kind = .endOfLine

/-- The command stands for the first tokens of a list, of which there is at least one. Stray text
reaches to the end of a line. -/
inductive Command : Node → List Token → List Token → Prop
  | comment {t : Token} (rest : List Token) : t.kind = .comment →
    Command (.comment t.value) (t :: rest) rest
  | expression {node : Node} {ahead rest : List Token} : Expression cut (some node) ahead rest →
    rest.length < ahead.length → Command node ahead rest
  | stray {used ahead rest : List Token} (line : Int) : used ≠ [] → ahead = used ++ rest →
    OnLine used → AtLineEnd rest → Command (.unknown (texts used) line) ahead rest

/-- Items stand one behind the other for the first tokens of a list. -/
inductive Series {α : Type} (Item : α → List Token → List Token → Prop) :
    List α → List Token → List Token → Prop
  | nil (ahead : List Token) : Series Item [] ahead ahead
  | cons {item : α} {items : List α} {ahead behind rest : List Token} : Item item ahead behind →
    Series Item items behind rest → Series Item (item :: items) ahead rest

/-- The header stands for the first tokens of a list. -/
inductive Header : Node → List Token → List Token → Prop
  | bare {t : Token} {label : Option Node} {ahead rest : List Token} :
    Parse.isOWord t = true → Expression cut label ahead rest →
    Header (.header t.value label [] none) (t :: ahead) rest
  | keyed {t u : Token} {label condition : Option Node} {ahead behind rest : List Token} :
    Parse.isOWord t = true → Expression cut label ahead (u :: behind) → u.kind = .flow →
    Expression cut condition behind rest →
    Header (.header t.value label (Text.upper u.value) condition) (t :: ahead) rest

/-- The end of a block stands for the first tokens of a list, for none if it is missing. -/
inductive Closing : Option Node → List Token → List Token → Prop
  | missing (ahead : List Token) : Closing none ahead ahead
  | header {node : Node} {ahead rest : List Token} : Header cut node ahead rest →
    Closing (some node) ahead rest

/-- The statement, which is no block, stands for the first tokens of a list. -/
inductive Simple : Node → List Token → List Token → Prop
  | lineBreak {t : Token} (rest : List Token) : t.kind = .endOfLine →
    Simple (.endOfLine t.value) (t :: rest) rest
  | comment {t : Token} (rest : List Token) : t.kind = .comment →
    Simple (.comment t.value) (t :: rest) rest
  | stray {used ahead rest : List Token} (line : Int) : used ≠ [] → ahead = used ++ rest →
    OnLine used → AtLineEnd rest → Simple (.unknown (texts used) line) ahead rest
  | assignment {t u : Token} {value : Option Node} {ahead rest : List Token} :
    t.kind = .parameter → u.kind = .assign → Expression cut value ahead rest →
    Simple (.assignment t.value value) (t :: u :: ahead) rest
  | commands {nodes : List Node} {ahead rest : List Token} : nodes ≠ [] →
    (∀ t ∈ ahead.head?, t.kind ≠ .unknown) → Series (Command cut) nodes ahead rest →
    Simple (.commandLine (nodes.map some)) ahead rest
  | flat {header : Node} {nodes : List Node} {ahead behind rest : List Token} :
    Header cut header ahead behind → Series (Command cut) nodes behind rest →
    Simple (.oStatement (some header) (some (.commandLine (nodes.map some)))) ahead rest

/-- Statements stand one behind the other for the first tokens of a list. -/
inductive Statements : List Node → List Token → List Token → Prop
  | nil (ahead : List Token) : Statements [] ahead ahead
  | simple {node : Node} {nodes : List Node} {ahead behind rest : List Token} :
    Simple cut node ahead behind → Statements nodes behind rest →
    Statements (node :: nodes) ahead rest
  | block {oWord keyword : Text} {label condition closing : Option Node}
    {body nodes : List Node} {ahead inside last behind rest : List Token} :
    Header cut (.header oWord label keyword condition) ahead inside →
    Statements body inside last → Closing cut closing last behind →
    Statements nodes behind rest →
    Statements (.block keyword (some (.header oWord label keyword condition)) (body.map some)
      closing :: nodes) ahead rest

/-- The statements stand for all of the tokens. What a guard left of them is text, which begins
within a line. -/
inductive Program : List Node → List Token → Prop
  | whole {nodes : List Node} {ts : List Token} : Statements cut nodes ts [] → Program nodes ts
  | cutOff {nodes : List Node} {ts rest : List Token} (line : Int) : cut → ¬AtLineEnd rest →
    Statements cut nodes ts rest → Program (nodes ++ [.unknown (texts rest) line]) ts

variable {cut}

namespace Statements

theorem single {node : Node} {ahead rest : List Token} (h : Simple cut node ahead rest) :
    Statements cut [node] ahead rest := .simple h (.nil rest)

theorem append {ns ms : List Node} {ahead behind rest : List Token}
    (h : Statements cut ns ahead behind) (k : Statements cut ms behind rest) :
    Statements cut (ns ++ ms) ahead rest := by
  induction h with
  | nil => exact k
  | simple hs _ ih => exact .simple hs (ih k)
  | block hh hb hc _ _ ih => exact .block hh hb hc (ih k)

end Statements

namespace Series

variable {α β : Type} {Item : α → List Token → List Token → Prop} {ahead behind rest : List Token}

theorem single {x : α} (h : Item x ahead rest) : Series Item [x] ahead rest := .cons h (.nil rest)

theorem append {xs ys : List α} (h : Series Item xs ahead behind) (k : Series Item ys behind rest) :
    Series Item (xs ++ ys) ahead rest := by
  induction h with
  | nil => exact k
  | cons hx _ ih => exact .cons hx (ih k)

theorem of_append {xs ys : List α} (h : Series Item (xs ++ ys) ahead rest) :
    ∃ behind, Series Item xs ahead behind ∧ Series Item ys behind rest := by
  induction xs generalizing ahead with
  | nil => exact ⟨ahead, .nil ahead, h⟩
  | cons x xs ih =>
    cases h with
    | cons hx h =>
      obtain ⟨behind, hxs, hys⟩ := ih h
      exact ⟨behind, .cons hx hxs, hys⟩

theorem map {Item' : β → List Token → List Token → Prop} {f : α → β}
    (hf : ∀ x ahead rest, Item x ahead rest → Item' (f x) ahead rest) {xs : List α}
    (h : Series Item xs ahead rest) : Series Item' (xs.map f) ahead rest := by
  induction h with
  | nil => exact .nil _
  | cons hx _ ih => exact .cons (hf _ _ _ hx) ih

end Series

/-- Series of statements are statements. -/
theorem Series.statements {nodes : List Node} {ahead rest : List Token}
    (h : Series (fun node => Statements cut [node]) nodes ahead rest) :
    Statements cut nodes ahead rest := by
  induction h with
  | nil ahead => exact .nil ahead
  | cons hitem _ ih => exact hitem.append ih

/-! ## What is left -/

theorem Expression.suffix {n : Option Node} {ahead rest : List Token}
    (h : Expression cut n ahead rest) : rest <:+ ahead := by
  induction h with
  | missing => exact List.suffix_rfl
  | number | parameter => exact List.suffix_cons _ _
  | word _ _ ih | call _ _ ih | unary _ _ ih | unclosed _ _ _ ih =>
    exact ih.trans (List.suffix_cons _ _)
  | binary _ _ _ ihl ihr => exact ihr.trans ((List.suffix_cons _ _).trans ihl)
  | closed _ _ _ ih => exact (List.suffix_cons _ _).trans (ih.trans (List.suffix_cons _ _))
  | cutOff _ _ h _ _ => exact h ▸ List.suffix_append _ _

theorem Command.suffix {n : Node} {ahead rest : List Token} (h : Command cut n ahead rest) :
    rest <:+ ahead := by
  cases h with
  | comment => exact List.suffix_cons _ _
  | expression h => exact h.suffix
  | stray _ _ h _ _ => exact h ▸ List.suffix_append _ _

theorem Series.suffix {α : Type} {Item : α → List Token → List Token → Prop}
    (hitem : ∀ item ahead rest, Item item ahead rest → rest <:+ ahead) {items : List α}
    {ahead rest : List Token} (h : Series Item items ahead rest) : rest <:+ ahead := by
  induction h with
  | nil => exact List.suffix_rfl
  | cons h _ ih => exact ih.trans (hitem _ _ _ h)

theorem Header.suffix {n : Node} {ahead rest : List Token} (h : Header cut n ahead rest) :
    rest <:+ ahead := by
  cases h with
  | bare _ hl => exact hl.suffix.trans (List.suffix_cons _ _)
  | keyed _ hl _ hc =>
    exact hc.suffix.trans ((List.suffix_cons _ _).trans (hl.suffix.trans (List.suffix_cons _ _)))

theorem Closing.suffix {n : Option Node} {ahead rest : List Token} (h : Closing cut n ahead rest) :
    rest <:+ ahead := by
  cases h with
  | missing => exact List.suffix_rfl
  | header h => exact h.suffix

theorem Simple.suffix {n : Node} {ahead rest : List Token} (h : Simple cut n ahead rest) :
    rest <:+ ahead := by
  cases h with
  | lineBreak | comment => exact List.suffix_cons _ _
  | stray _ _ h _ _ => exact h ▸ List.suffix_append _ _
  | assignment _ _ h =>
    exact h.suffix.trans ((List.suffix_cons _ _).trans (List.suffix_cons _ _))
  | commands _ _ h => exact h.suffix fun _ _ _ => Command.suffix
  | flat hh hs => exact (hs.suffix fun _ _ _ => Command.suffix).trans hh.suffix

theorem Statements.suffix {nodes : List Node} {ahead rest : List Token}
    (h : Statements cut nodes ahead rest) : rest <:+ ahead := by
  induction h with
  | nil => exact List.suffix_rfl
  | simple hs _ ih => exact ih.trans hs.suffix
  | block hh _ hc _ ihb ih => exact ih.trans (hc.suffix.trans (ihb.trans hh.suffix))

/-! ## What is taken -/

/-- The classes of the tokens that expressions are made of, closing brackets apart. -/
def Expression.kinds : List TokenKind :=
  [.number, .parameter, .word, .function, .openBracket, .operator, .comparison, .logical]

theorem Expression.kind_mem_of_isOperator {t : Token} (h : Parse.isOperator t = true) :
    t.kind ∈ kinds := by
  simp only [Parse.isOperator, Bool.or_eq_true, decide_eq_true_eq] at h
  rcases h with (hk | hk) | hk <;> rw [hk] <;> decide

/-- What holds of the tokens of each part holds of the tokens that an expression takes. -/
theorem Expression.exists_used {P : List Token → Prop} (nil : P [])
    (append : ∀ us vs, P us → P vs → P (us ++ vs)) (single : ∀ t : Token, t.kind ∈ kinds → P [t])
    (enclosed : ∀ t us u, t.kind = .openBracket → u.kind = .closeBracket → P us →
      P (t :: us ++ [u]))
    (cutOff : ∀ us, cut → OnLine us → closings us ≤ openings us → P us) {n : Option Node}
    {ahead rest : List Token} (h : Expression cut n ahead rest) :
    ∃ used, ahead = used ++ rest ∧ P used := by
  induction h with
  | missing => exact ⟨[], rfl, nil⟩
  | number _ ht | parameter _ ht => exact ⟨[_], rfl, single _ (by rw [ht]; decide)⟩
  | word ht _ ih | call ht _ ih | unclosed ht _ _ ih =>
    obtain ⟨used, rfl, hused⟩ := ih
    exact ⟨_ :: used, rfl, append [_] used (single _ (by rw [ht]; decide)) hused⟩
  | unary ht _ ih =>
    obtain ⟨used, rfl, hused⟩ := ih
    exact ⟨_ :: used, rfl, append [_] used (single _ (kind_mem_of_isOperator ht)) hused⟩
  | @binary t _ _ _ _ _ ht _ _ ihl ihr =>
    obtain ⟨us, rfl, hus⟩ := ihl
    obtain ⟨vs, rfl, hvs⟩ := ihr
    have hright := append [t] vs (single t (kind_mem_of_isOperator ht)) hvs
    exact ⟨us ++ t :: vs, by simp, append us _ hus hright⟩
  | @closed t u _ _ _ ht hu _ ih =>
    obtain ⟨used, rfl, hused⟩ := ih
    exact ⟨t :: used ++ [u], by simp, enclosed t used u ht hu hused⟩
  | cutOff _ hcut hused hline hcount => exact ⟨_, hused, cutOff _ hcut hline hcount⟩

/-- The same of what holds of each token. -/
theorem Expression.forall_used {P : Token → Prop}
    (token : ∀ t : Token, t.kind ∈ TokenKind.closeBracket :: kinds → P t)
    (cutOff : ∀ us, cut → OnLine us → ∀ t ∈ us, P t) {n : Option Node} {ahead rest : List Token}
    (h : Expression cut n ahead rest) : ∃ used, ahead = used ++ rest ∧ ∀ t ∈ used, P t := by
  refine h.exists_used (P := fun us => ∀ t ∈ us, P t) (List.forall_mem_nil P)
    (fun us vs hus hvs => List.forall_mem_append.mpr ⟨hus, hvs⟩)
    (fun t ht => List.forall_mem_singleton.mpr (token t (List.mem_cons_of_mem _ ht)))
    (fun t us u ht hu hus => ?_) fun us hcut hline _ => cutOff us hcut hline
  refine List.forall_mem_append.mpr ⟨List.forall_mem_cons.mpr ⟨token t ?_, hus⟩, ?_⟩
  · rw [ht]
    decide
  · refine List.forall_mem_singleton.mpr (token u ?_)
    rw [hu]
    decide

theorem Command.length_lt {n : Node} {ahead rest : List Token} (h : Command cut n ahead rest) :
    rest.length < ahead.length := by
  cases h with
  | comment => exact Nat.lt_succ_self _
  | expression _ hlt => exact hlt
  | stray _ hne hused _ _ =>
    have hpos := List.length_pos_iff.mpr hne
    rw [hused, List.length_append]
    omega

theorem length_commands_lt {nodes : List Node} {ahead rest : List Token}
    (h : Series (Command cut) nodes ahead rest) (hne : nodes ≠ []) :
    rest.length < ahead.length := by
  cases h with
  | nil => exact absurd rfl hne
  | cons hc hcs =>
    have hle := (hcs.suffix fun _ _ _ => Command.suffix).length_le
    exact Nat.lt_of_le_of_lt hle hc.length_lt

theorem Header.length_lt {n : Node} {ahead rest : List Token} (h : Header cut n ahead rest) :
    rest.length < ahead.length := by
  cases h with
  | bare _ hl => exact Nat.lt_succ_of_le hl.suffix.length_le
  | keyed _ hl _ hc =>
    have hlabel := hl.suffix.length_le
    have hcondition := hc.suffix.length_le
    simp only [List.length_cons] at hlabel ⊢
    omega

theorem Simple.length_lt {n : Node} {ahead rest : List Token} (h : Simple cut n ahead rest) :
    rest.length < ahead.length := by
  cases h with
  | lineBreak | comment => exact Nat.lt_succ_self _
  | stray _ hne hused _ _ =>
    have hpos := List.length_pos_iff.mpr hne
    rw [hused, List.length_append]
    omega
  | assignment _ _ h => exact Nat.lt_succ_of_le (Nat.le_succ_of_le h.suffix.length_le)
  | commands hne _ h => exact length_commands_lt h hne
  | flat hh hs =>
    exact Nat.lt_of_le_of_lt (hs.suffix fun _ _ _ => Command.suffix).length_le hh.length_lt

/-- Every statement takes a token. -/
theorem Statements.length_lt {nodes : List Node} {ahead rest : List Token}
    (h : Statements cut nodes ahead rest) (hne : nodes ≠ []) : rest.length < ahead.length := by
  cases h with
  | nil => exact absurd rfl hne
  | simple hs hmore => exact Nat.lt_of_le_of_lt hmore.suffix.length_le hs.length_lt
  | block hh hb hc hmore =>
    refine Nat.lt_of_le_of_lt hmore.suffix.length_le ?_
    exact Nat.lt_of_le_of_lt (hc.suffix.trans hb.suffix).length_le hh.length_lt

/-! ## Labels -/

/-- An expression that is read has a text in every style that has texts for its leaves. -/
theorem Expression.text_eq_ok {ε : Type} {style : Style ε}
    (hnumber : ∀ t, ∃ text, style.leaf (.number t) = .ok text)
    (hparameter : ∀ t, ∃ text, style.leaf (.parameter t) = .ok text)
    (hunknown : ∀ t line, ∃ text, style.leaf (.unknown t line) = .ok text) {n : Option Node}
    {ahead rest : List Token} (h : Expression cut n ahead rest) :
    ∃ text, style.text n = .ok text := by
  rw [Style.text_eq_plainText?]
  induction h with
  | missing => exact ⟨_, rfl⟩
  | @number t => exact hnumber t.value
  | @parameter t => exact hparameter t.value
  | @cutOff used _ _ line => exact hunknown (texts used) line
  | word _ _ ih | call _ _ ih | unary _ _ ih | closed _ _ _ ih | unclosed _ _ _ ih =>
    obtain ⟨text, ih⟩ := ih
    simp only [Style.plainText?, Style.plainText, ih]
    exact ⟨_, rfl⟩
  | binary _ _ _ ihl ihr =>
    obtain ⟨left, ihl⟩ := ihl
    obtain ⟨right, ihr⟩ := ihr
    simp only [Style.plainText?, Style.plainText, ihl, ihr]
    exact ⟨_, rfl⟩

/-- An expression that is read can be compared as a label. -/
theorem Expression.label_eq_ok {n : Option Node} {ahead rest : List Token}
    (h : Expression cut n ahead rest) : ∃ text, Node.label n = .ok text :=
  h.text_eq_ok (fun _ => ⟨_, rfl⟩) (fun _ => ⟨_, rfl⟩) (fun _ _ => ⟨_, rfl⟩)

end Reading

end Gcode
