import Gcode.Proofs.Parse.Statement

/-!
# Expressions read step by step in a session

A parse function takes what is ahead and gives back what it left. A session is where this happens:
it has one place, one depth and one list of reports, and reading changes them step by step. A token
is read, a report is added, the depth goes up before the part of an expression that counts against
the limit and goes down behind it. The rules below say in which order the steps are made; a frame is
what holds of the session behind them, whatever way was taken.

## Main definitions

* `Session.step`, `Session.report`, `Session.deeper`, `Session.shallower` — the steps.
* `Gathers` — tokens that are read one by one as long as a condition holds.
* `Evaluates` — the steps by which an expression is read, or a part of one.
* `Session.Framed` — what reading keeps of a session, and how it may change the rest.
* `Session.At` — what a parse function is given in a session.

## Main statements

* `Evaluates.framed` — reading an expression keeps the frame.
-/

namespace Gcode

namespace Session

/-! ## Steps -/

/-- The place is not behind the first end mark. -/
def InBounds (σ : Session) : Prop := σ.position ≤ σ.readable.length

/-- The session behind the token at hand. The end mark is not read. -/
def step (σ : Session) : Session :=
  if σ.current.kind = .endOfFile then σ else { σ with position := σ.position + 1 }

/-- The session with one more report. -/
def report (σ : Session) (r : Report) : Session := { σ with reports := σ.reports ++ [r] }

/-- The session `n` levels deeper. -/
def deeper (σ : Session) (n : Nat) : Session := { σ with depth := σ.depth + n }

/-- The session `n` levels less deep. -/
def shallower (σ : Session) (n : Nat) : Session := { σ with depth := σ.depth - n }

/-- A token of the class is read; if it is another one, that is reported. -/
def expect (σ : Session) (kind : TokenKind) : Option Token × Session :=
  if σ.current.kind = kind then (some σ.current, σ.step)
  else (none, σ.report ⟨.missingToken kind σ.current, σ.current.line⟩)

/-- What is left of the limit on nesting. -/
def room (σ : Session) : Nat := (σ.limits.maxDepth - σ.depth).toNat

/-- The session behind what a parse function read in it. -/
def behind {α : Type} (σ : Session) {ahead : List Token} (p : Parsed α ahead) : Session :=
  { σ with
    position := σ.setting.position p.rest
    reports := σ.reports ++ p.reports }

end Session

/-! ## Runs of tokens -/

/-- When a run of tokens goes on. What it keeps in mind of the tokens so far is an `ℓ`. -/
structure Gathering (ℓ : Type) where
  goesOn : ℓ → Session → Bool
  next : ℓ → Token → ℓ

namespace Gathering

/-- The signs in front of an operand. -/
def signs : Gathering Unit := ⟨fun _ σ => Parse.isSign σ.current, fun _ _ => ()⟩

/-- The rest of the line. -/
def line : Gathering Unit :=
  ⟨fun _ σ => σ.current.kind ≠ .endOfLine && σ.current.kind ≠ .endOfFile, fun _ _ => ()⟩

/-- The line breaks at hand. -/
def breaks : Gathering Unit := ⟨fun _ σ => σ.current.kind = .endOfLine, fun _ _ => ()⟩

/-- All that is left. -/
def program : Gathering Unit := ⟨fun _ σ => σ.current.kind ≠ .endOfFile, fun _ _ => ()⟩

/-- The rest of an expression, with the number of brackets that are open. -/
def expression : Gathering Nat where
  goesOn level σ := !(Parse.endsCommands σ.setting σ.ahead || σ.current.kind = .comment ||
    (σ.current.kind = .closeBracket && level = 0))
  next level t :=
    if t.kind = .openBracket then level + 1
    else if t.kind = .closeBracket then level - 1
    else level

/-- A group of brackets, with the number of brackets that are open, up to the one that closes the
group. -/
def group : Gathering (Option Int) where
  goesOn level σ :=
    level.isSome && σ.current.kind ≠ .endOfLine && σ.current.kind ≠ .endOfFile
  next level t :=
    level.bind fun level =>
      if t.kind = .openBracket then some (level + 1)
      else if t.kind = .closeBracket then if level = 1 then none else some (level - 1)
      else some level

end Gathering

/-- Tokens are read one by one as long as the run goes on. -/
inductive Gathers {ℓ : Type} (g : Gathering ℓ) : ℓ → Session → List Token → Session → Prop
  | stop {l : ℓ} {σ : Session} : g.goesOn l σ = false → Gathers g l σ [] σ
  | more {l : ℓ} {σ τ : Session} {ts : List Token} : g.goesOn l σ = true →
    Gathers g (g.next l σ.current) σ.step ts τ → Gathers g l σ (σ.current :: ts) τ

/-! ## Expressions -/

/-- What of an expression is to be read. -/
inductive Asked
  | value
  | operand
  | primary
  | bracketed
  | bracketGroup
  | optionalBracket
  | functionCall
  /-- The operators behind the operand `left` that bind at least as tight as `least`. -/
  | chain (left : Option Node) (height : Nat) (least : Int)
  /-- The operators behind the operand `right` that bind tighter than `bound`. -/
  | tighten (right : Option Node) (bound : Int)
  /-- The rest of an expression, behind the text `text` of it. -/
  | cutOff (text : Text)

open Parse (isSign isOperator binds withSigns)
open Keyword (precedence)
open Node (height)
open Token (texts)

/-- An expression, or a part of one, is read from a session on and leads to another one. -/
inductive Evaluates : Asked → Session → Option Node → Session → Prop
  | value {σ τ υ : Session} {left n : Option Node} : Evaluates .operand σ left τ →
    Evaluates (.chain left (height left) 0) τ n υ → Evaluates .value σ n υ
  | operand {σ τ υ : Session} {signs : List Token} {n : Option Node} :
    Gathers .signs () σ signs τ → signs.length ≤ τ.room →
    Evaluates .primary (τ.deeper signs.length) n υ →
    Evaluates .operand σ (withSigns (signs.map Token.value) n) (υ.shallower signs.length)
  | deepSigns {σ τ υ : Session} {signs : List Token} {n : Option Node} :
    Gathers .signs () σ signs τ → τ.room < signs.length →
    Evaluates (.cutOff ((signs.map Token.value).drop τ.room).flatten)
      (τ.report ⟨.deepSigns τ.limits.maxDepth, τ.current.line⟩) n υ →
    Evaluates .operand σ (withSigns ((signs.map Token.value).take τ.room) n) υ
  | number {σ : Session} : σ.current.kind = .number →
    Evaluates .primary σ (some (.number σ.current.value)) σ.step
  | parameter {σ : Session} : σ.current.kind = .parameter →
    Evaluates .primary σ (some (.parameter σ.current.value)) σ.step
  | word {σ : Session} : σ.current.kind = .word →
    Evaluates .primary σ (some (.word σ.current.value none)) σ.step
  | primaryBracket {σ τ : Session} {n : Option Node} : σ.current.kind = .openBracket →
    Evaluates .bracketed σ n τ → Evaluates .primary σ n τ
  | primaryCall {σ τ : Session} {n : Option Node} : σ.current.kind = .function →
    Evaluates .functionCall σ n τ → Evaluates .primary σ n τ
  | noOperand {σ : Session} :
    σ.current.kind ∉ ([.number, .parameter, .word, .openBracket, .function] : List TokenKind) →
    Evaluates .primary σ none (σ.report ⟨.missingOperand σ.current, σ.current.line⟩)
  | bracketed {σ τ : Session} {inner : Option Node} : ¬σ.limits.maxDepth ≤ σ.depth →
    Evaluates .value ((σ.expect .openBracket).2.deeper 1) inner τ →
    Evaluates .bracketed σ
      (some (.bracketed inner ((τ.shallower 1).expect .closeBracket).1.isSome))
      ((τ.shallower 1).expect .closeBracket).2
  | deepBracket {σ τ : Session} {n : Option Node} : σ.limits.maxDepth ≤ σ.depth →
    Evaluates .bracketGroup (σ.report ⟨.deepBracket σ.limits.maxDepth, σ.current.line⟩) n τ →
    Evaluates .bracketed σ n τ
  | bracketGroup {σ τ : Session} {ts : List Token} : Gathers .group (some 0) σ ts τ →
    Evaluates .bracketGroup σ (some (.unknown (texts ts) σ.current.line)) τ
  | optionalBracket {σ τ : Session} {n : Option Node} : σ.current.kind = .openBracket →
    Evaluates .bracketed σ n τ → Evaluates .optionalBracket σ n τ
  | noBracket {σ : Session} : σ.current.kind ≠ .openBracket → Evaluates .optionalBracket σ none σ
  | functionCall {σ τ : Session} {argument : Option Node} :
    Evaluates .optionalBracket σ.step argument τ →
    Evaluates .functionCall σ (some (.call σ.current.value argument)) τ
  | chainEnd {σ : Session} {left : Option Node} {size : Nat} {least : Int} :
    binds σ.current least = false → Evaluates (.chain left size least) σ left σ
  | link {σ τ υ φ : Session} {left first right n : Option Node} {size : Nat} {least : Int} :
    binds σ.current least = true → ¬σ.limits.maxDepth ≤ σ.depth + size →
    Evaluates .operand σ.step first τ →
    Evaluates (.tighten first (precedence σ.current.value)) τ right υ →
    Evaluates (.chain (some (.binary σ.current.value left right)) (1 + max size (height right))
      least) υ n φ →
    Evaluates (.chain left size least) σ n φ
  | deepLink {σ τ : Session} {left n : Option Node} {size : Nat} {least : Int} :
    binds σ.current least = true → σ.limits.maxDepth ≤ σ.depth + size →
    Evaluates (.cutOff [])
      (σ.step.report ⟨.deepChain σ.limits.maxDepth, σ.step.current.line⟩) n τ →
    Evaluates (.chain left size least) σ (some (.binary σ.current.value left n)) τ
  | tightenEnd {σ : Session} {right : Option Node} {bound : Int} :
    binds σ.current (bound + 1) = false → Evaluates (.tighten right bound) σ right σ
  | tighten {σ τ υ : Session} {right tighter n : Option Node} {bound : Int} :
    binds σ.current (bound + 1) = true →
    Evaluates (.chain right (height right) (precedence σ.current.value)) σ tighter τ →
    Evaluates (.tighten tighter bound) τ n υ → Evaluates (.tighten right bound) σ n υ
  | cutOff {σ τ : Session} {text : Text} {ts : List Token} : Gathers .expression 0 σ ts τ →
    Evaluates (.cutOff text) σ (some (.unknown (text ++ texts ts) σ.current.line)) τ

/-! ## Frames -/

/-- From `σ` on, `τ` was reached by reading: the tokens, the limits and the depth are the same, the
place has not moved back, nor behind the first end mark, and the reports so far are still there. -/
structure Session.Framed (σ τ : Session) : Prop where
  tokens_eq : τ.tokens = σ.tokens
  limits_eq : τ.limits = σ.limits
  depth_eq : τ.depth = σ.depth
  position_le : σ.position ≤ τ.position
  inBounds : τ.InBounds
  reports : σ.reports <+: τ.reports

namespace Session

variable {σ τ υ : Session}

/-- The token at an index before the first end mark. -/
theorem current_eq (h : σ.position < σ.readable.length) : σ.current = σ.readable[σ.position] := by
  rw [current, Parse.current, ahead, List.drop_eq_getElem_cons h]
  rfl

theorem position_lt (hσ : σ.InBounds) (hne : σ.current.kind ≠ .endOfFile) :
    σ.position < σ.readable.length := by
  refine Nat.lt_of_le_of_ne hσ fun heq => hne ?_
  rw [current, Parse.current, ahead, heq, List.drop_length]
  rfl

namespace Framed

theorem refl (hσ : σ.InBounds) : σ.Framed σ :=
  ⟨rfl, rfl, rfl, Nat.le_refl _, hσ, List.prefix_rfl⟩

theorem trans (h : σ.Framed τ) (k : τ.Framed υ) : σ.Framed υ where
  tokens_eq := k.tokens_eq.trans h.tokens_eq
  limits_eq := k.limits_eq.trans h.limits_eq
  depth_eq := k.depth_eq.trans h.depth_eq
  position_le := Nat.le_trans h.position_le k.position_le
  inBounds := k.inBounds
  reports := h.reports.trans k.reports

theorem step (hσ : σ.InBounds) : σ.Framed σ.step := by
  unfold Session.step
  split
  case isTrue => exact .refl hσ
  case isFalse hne =>
    exact ⟨rfl, rfl, rfl, Nat.le_succ _, position_lt hσ hne, List.prefix_rfl⟩

theorem report (hσ : σ.InBounds) (r : Report) : σ.Framed (σ.report r) :=
  ⟨rfl, rfl, rfl, Nat.le_refl _, hσ, List.prefix_append _ _⟩

theorem expect (hσ : σ.InBounds) (kind : TokenKind) : σ.Framed (σ.expect kind).2 := by
  unfold Session.expect
  split
  · exact .step hσ
  · exact .report hσ _

/-- What is read some levels deeper keeps the frame if the depth goes up by as many levels again. -/
theorem shallower {n : Nat} (h : (σ.deeper n).Framed τ) : σ.Framed (τ.shallower n) where
  tokens_eq := h.tokens_eq
  limits_eq := h.limits_eq
  depth_eq := by
    show τ.depth - n = σ.depth
    rw [h.depth_eq]
    exact Nat.add_sub_cancel _ _
  position_le := h.position_le
  inBounds := h.inBounds
  reports := h.reports

end Framed

end Session

theorem Gathers.framed {ℓ : Type} {g : Gathering ℓ} {l : ℓ} {σ τ : Session} {ts : List Token}
    (h : Gathers g l σ ts τ) (hσ : σ.InBounds) : σ.Framed τ := by
  induction h with
  | stop => exact .refl hσ
  | more _ _ ih =>
    have hstep := Session.Framed.step hσ
    exact hstep.trans (ih hstep.inBounds)

/-- Reading an expression keeps the frame, whatever way it takes. -/
theorem Evaluates.framed {a : Asked} {σ τ : Session} {n : Option Node} (h : Evaluates a σ n τ)
    (hσ : σ.InBounds) : σ.Framed τ := by
  induction h with
  | value _ _ ihleft ihchain | tighten _ _ _ ihleft ihchain =>
    have hleft := ihleft hσ
    exact hleft.trans (ihchain hleft.inBounds)
  | operand hsigns _ _ ih =>
    have hfirst := hsigns.framed hσ
    exact hfirst.trans (ih hfirst.inBounds).shallower
  | deepSigns hsigns _ _ ih =>
    have hfirst := hsigns.framed hσ
    exact hfirst.trans ((Session.Framed.report hfirst.inBounds _).trans (ih hfirst.inBounds))
  | number | parameter | word => exact .step hσ
  | primaryBracket _ _ ih | primaryCall _ _ ih | optionalBracket _ _ ih => exact ih hσ
  | noOperand => exact .report hσ _
  | bracketed _ _ ih =>
    have hopen := Session.Framed.expect hσ .openBracket
    have hinner := (ih hopen.inBounds).shallower
    exact hopen.trans (hinner.trans (.expect hinner.inBounds _))
  | deepBracket _ _ ih => exact (Session.Framed.report hσ _).trans (ih hσ)
  | bracketGroup hgroup => exact hgroup.framed hσ
  | noBracket | chainEnd | tightenEnd => exact .refl hσ
  | functionCall _ ih =>
    have hname := Session.Framed.step hσ
    exact hname.trans (ih hname.inBounds)
  | link _ _ _ _ _ ihfirst ihright ihchain =>
    have hoperator := Session.Framed.step hσ
    have hfirst := hoperator.trans (ihfirst hoperator.inBounds)
    have hright := hfirst.trans (ihright hfirst.inBounds)
    exact hright.trans (ihchain hright.inBounds)
  | deepLink _ _ _ ih =>
    have hoperator := Session.Framed.step hσ
    exact hoperator.trans ((Session.Framed.report hoperator.inBounds _).trans
      (ih hoperator.inBounds))
  | cutOff hrest => exact hrest.framed hσ

/-! ## The steps and the parse functions -/

namespace Session

variable {s : Setting} {depth : Nat} {σ τ : Session} {t : Token} {ahead rest : List Token}
  {α β : Type}

/-- In the session, what a parse function is given is the setting, the depth and what is ahead. -/
structure At (σ : Session) (s : Setting) (depth : Nat) (ahead : List Token) : Prop where
  setting_eq : σ.setting = s
  depth_eq : σ.depth = depth
  ahead_eq : σ.ahead = ahead
  inBounds : σ.InBounds

theorem InBounds.at (h : σ.InBounds) : σ.At σ.setting σ.depth σ.ahead := ⟨rfl, rfl, rfl, h⟩

theorem behind_congr (σ : Session) {p : Parsed α ahead} {q : Parsed β ahead}
    (hrest : p.rest = q.rest) (hreports : p.reports = q.reports) : σ.behind p = σ.behind q := by
  rw [behind, behind, hrest, hreports]

theorem behind_behind (σ : Session) (p : Parsed α ahead) (q : Parsed β p.rest) :
    (σ.behind p).behind q = σ.behind (p.behind q) := by
  simp only [behind, Parsed.behind, List.append_assoc]
  rfl

theorem behind_report (σ : Session) (r : Report) (p : Parsed α ahead) :
    (σ.report r).behind p = σ.behind (p.withReport r) := by
  simp only [behind, report, Parsed.withReport, List.append_assoc]
  rfl

theorem shallower_behind (σ : Session) (n : Nat) (p : Parsed α ahead) :
    ((σ.deeper n).behind p).shallower n = σ.behind p := by
  simp only [behind, deeper, shallower, Nat.add_sub_cancel]
  rfl

namespace At

variable (h : σ.At s depth ahead)
include h

theorem current_eq : σ.current = Parse.current s ahead := by
  rw [current, h.setting_eq, h.ahead_eq]

theorem maxDepth_eq : σ.limits.maxDepth = s.maxDepth := by rw [← h.setting_eq]; rfl

theorem room_eq : σ.room = (s.maxDepth - depth).toNat := by
  rw [room, h.maxDepth_eq, h.depth_eq]

theorem suffix : ahead <:+ σ.readable := by
  rw [← h.ahead_eq]
  exact List.drop_suffix _ _

theorem kind_ne : ∀ t ∈ ahead, t.kind ≠ .endOfFile := fun _ ht =>
  σ.kind_ne_of_mem_readable (h.suffix.subset ht)

theorem position_eq : s.position ahead = σ.position := by
  have hle : σ.position ≤ σ.readable.length := h.inBounds
  rw [← h.setting_eq, ← h.ahead_eq, Setting.position, Session.ahead, List.length_drop]
  exact Nat.sub_sub_self hle

theorem length_le : ahead.length ≤ s.total := by
  rw [← h.setting_eq]
  exact h.suffix.length_le

theorem behind_pure (value : α) : σ.behind (Parsed.pure value ahead) = σ := by
  rw [Session.behind, h.setting_eq]
  simp only [Parsed.pure, h.position_eq, List.append_nil]

theorem behind_reporting (value : α) (r : Report) :
    σ.behind (Parsed.reporting value r ahead) = σ.report r := by
  rw [Session.behind, h.setting_eq]
  simp only [Parsed.reporting, h.position_eq]
  rfl

theorem behind (p : Parsed α ahead) : (σ.behind p).At s depth p.rest where
  setting_eq := h.setting_eq
  depth_eq := h.depth_eq
  ahead_eq := (List.suffix_iff_eq_drop.mp (p.suffix.trans h.suffix)).symm
  inBounds := Nat.sub_le _ _

theorem report (r : Report) : (σ.report r).At s depth ahead :=
  ⟨h.setting_eq, h.depth_eq, h.ahead_eq, h.inBounds⟩

theorem deeper (n : Nat) : (σ.deeper n).At s (depth + n) ahead :=
  ⟨h.setting_eq, congrArg (· + n) h.depth_eq, h.ahead_eq, h.inBounds⟩

end At

/-- Reading a token is what reading the token at hand leads to. -/
theorem At.step_eq (h : σ.At s depth ahead) : σ.step = σ.behind (Parse.advance s ahead) := by
  have hne := h.kind_ne
  rw [step, h.current_eq]
  cases ahead with
  | nil =>
    rw [Parse.current_nil, if_pos (show s.stop.kind = .endOfFile from rfl)]
    exact (h.behind_pure ()).symm
  | cons t rest =>
    rw [Parse.current_cons, if_neg (hne t List.mem_cons_self), Session.behind, h.setting_eq]
    have hposition := h.position_eq
    have hlength := h.length_le
    simp only [Setting.position, List.length_cons, Parse.advance, List.tail_cons,
      List.append_nil] at hposition hlength ⊢
    congr 1
    omega

theorem At.step (h : σ.At s depth ahead) : σ.step.At s depth ahead.tail := by
  rw [h.step_eq]
  exact h.behind _

theorem At.step_cons (h : σ.At s depth (t :: rest)) : σ.step.At s depth rest := h.step

/-- What is read behind a token is read behind the step. -/
theorem At.step_behind (h : σ.At s depth (t :: rest)) (p : Parsed α rest) :
    σ.step.behind p = σ.behind (p.behindToken t) := by
  rw [h.step_eq]
  simp only [Session.behind, Parse.advance, List.append_nil]
  rfl

theorem At.expect_eq (h : σ.At s depth ahead) (kind : TokenKind) :
    σ.expect kind =
      ((Parse.expect s kind ahead).value, σ.behind (Parse.expect s kind ahead)) := by
  simp only [expect, Parse.expect, h.current_eq]
  split
  · rw [h.step_eq]
    rfl
  · rw [h.behind_reporting]
    rfl

/-- Where the token at hand is not the end mark, it is the first one ahead. -/
theorem InBounds.exists_at (h : σ.InBounds) (hne : σ.current.kind ≠ .endOfFile) :
    ∃ rest, σ.At σ.setting σ.depth (σ.current :: rest) := by
  have hat := h.at
  have hcurrent := hat.current_eq
  cases hahead : σ.ahead with
  | nil =>
    rw [hahead] at hcurrent
    exact absurd (congrArg Token.kind hcurrent) hne
  | cons t rest =>
    rw [hahead] at hat hcurrent
    rw [hcurrent]
    exact ⟨rest, hat⟩

end Session

end Gcode
