import Gcode.Proofs.Parse.Evaluate
import Gcode.Proofs.Parse.Yields

/-!
# What the steps of an expression lead to

The steps by which an expression is read and the function that parses it agree. Each rule is an
equation of the answer that the parse function gives in a session. So the steps lead to the answer,
by induction on them; and there are steps to every answer, since each rule asks for less to be read,
or for as much and for something smaller.

## Main definitions

* `Session.answer` — what the parse function answers, and the session behind what it read.

## Main statements

* `Evaluates.unique` — the steps lead to one place only.
* `evaluates_iff` — the steps lead to what the parse function gives, and to nothing else.
-/

namespace Gcode

open Parse (isSign isOperator binds withSigns)
open Keyword (precedence)
open Node (height)
open Token (texts)

/-- The parse function for what is asked. -/
def Asked.parsed : Asked → Setting → (depth : Nat) → (ahead : List Token) →
    Parsed (Option Node) ahead
  | .value => Parse.value
  | .operand => Parse.operand
  | .primary => Parse.primary
  | .bracketed => fun s depth ahead => (Parse.bracketed s depth ahead).map some
  | .bracketGroup => fun s _ ahead => (Parse.bracketGroup s ahead).map some
  | .optionalBracket => Parse.optionalBracket
  | .functionCall => fun s depth ahead => (Parse.functionCall s depth ahead).map some
  | .chain left size least => fun s depth ahead => Parse.chain s depth left size least ahead
  | .tighten right bound => fun s depth ahead => Parse.tighten s depth right bound ahead
  | .cutOff text => fun s _ ahead => (Parse.cutOff s text ahead).map some

/-- A run of tokens ends at one place only. -/
theorem Gathers.unique {ℓ : Type} {g : Gathering ℓ} {l : ℓ} {σ τ υ : Session} {ts us : List Token}
    (h : Gathers g l σ ts τ) (k : Gathers g l σ us υ) : ts = us ∧ τ = υ := by
  induction h generalizing us υ with
  | stop hgo =>
    cases k with
    | stop => exact ⟨rfl, rfl⟩
    | more hgo' => exact absurd hgo' (Bool.eq_false_iff.mp hgo)
  | more hgo _ ih =>
    cases k with
    | stop hgo' => exact absurd hgo (Bool.eq_false_iff.mp hgo')
    | more _ k =>
      obtain ⟨rfl, rfl⟩ := ih k
      exact ⟨rfl, rfl⟩

namespace Parse

variable {s : Setting} {ahead : List Token}

/-- An operator that binds is not the end mark. -/
theorem kind_ne_of_binds {t : Token} {least : Int} (h : binds t least = true) :
    t.kind ≠ .endOfFile := by
  intro hend
  simp [binds, isOperator, hend] at h

/-- An operator binds as tight as it binds. -/
theorem binds_precedence {t : Token} {least : Int} (h : binds t least = true) :
    binds t (precedence t.value) = true := by
  simp only [binds, Bool.and_eq_true, decide_eq_true_eq] at h ⊢
  exact ⟨h.1, Int.le_refl _⟩

end Parse

namespace Session

variable {s : Setting} {depth : Nat} {σ τ υ φ : Session} {t : Token} {ahead rest : List Token}

/-- The answer to what is asked, and the session behind what was read for it. -/
def answer (σ : Session) (a : Asked) : Option Node × Session := σ.run a.parsed

theorem At.answer_eq (h : σ.At s depth ahead) (a : Asked) :
    σ.answer a = ((a.parsed s depth ahead).value, σ.behind (a.parsed s depth ahead)) := by
  obtain ⟨rfl, rfl, rfl, -⟩ := h
  rfl

theorem current_eq_of_mem_head? (h : t ∈ σ.ahead.head?) : σ.current = t := by
  rw [current, Parse.current, List.headD_eq_head?_getD, Option.mem_def.mp h]
  rfl

/-! ## Runs of tokens -/

section

variable {ℓ α : Type} {g : Gathering ℓ} {l : ℓ}

theorem At.gathers_stop (h : σ.At s depth ahead) (hgo : g.goesOn l σ = false) (value : α) :
    Gathers g l σ [] (σ.behind (Parsed.pure value ahead)) := by
  rw [h.behind_pure]
  exact .stop hgo

/-- One more token of a run. -/
theorem At.gathers_more {ts : List Token} (h : σ.At s depth (t :: rest))
    (hgo : g.goesOn l σ = true) {p : Parsed α rest}
    (hg : Gathers g (g.next l t) σ.step ts (σ.step.behind p)) :
    Gathers g l σ (t :: ts) (σ.behind (p.behindToken t)) := by
  have ht : σ.current = t := h.current_eq
  rw [h.step_behind] at hg
  rw [← ht] at hg ⊢
  exact .more hgo hg

end

theorem At.gathers_signs (h : σ.At s depth ahead) : ∃ ts : List Token,
    (Parse.signs ahead).value = ts.map Token.value ∧
      Gathers .signs () σ ts (σ.behind (Parse.signs ahead)) := by
  have hgo : Gathering.signs.goesOn () σ = isSign (Parse.current s ahead) :=
    congrArg isSign h.current_eq
  induction ahead generalizing σ with
  | nil => exact ⟨[], rfl, h.gathers_stop hgo _⟩
  | cons t rest ih =>
    rw [Parse.signs]
    split
    case isTrue ht =>
      obtain ⟨ts, hvalue, hts⟩ := ih h.step (congrArg isSign h.step.current_eq)
      exact ⟨t :: ts, congrArg (t.value :: ·) hvalue, h.gathers_more (hgo.trans ht) hts⟩
    case isFalse ht =>
      exact ⟨[], rfl, h.gathers_stop (hgo.trans (Bool.eq_false_iff.mpr ht)) _⟩

theorem At.gathers_cutOff (h : σ.At s depth ahead) (level : Nat) : ∃ ts : List Token,
    (Parse.cutOffText s level ahead).value = texts ts ∧
      Gathers .expression level σ ts (σ.behind (Parse.cutOffText s level ahead)) := by
  have hgo : ∀ {σ : Session} {ahead : List Token}, σ.At s depth ahead → ∀ level,
      Gathering.expression.goesOn level σ = !(Parse.endsCommands s ahead ||
        (Parse.current s ahead).kind = .comment ||
        ((Parse.current s ahead).kind = .closeBracket && level = 0)) := by
    intro σ ahead h level
    simp only [Gathering.expression, h.current_eq, h.setting_eq, h.ahead_eq]
  induction ahead generalizing σ level with
  | nil => exact ⟨[], rfl, h.gathers_stop (hgo h level) _⟩
  | cons t rest ih =>
    rw [Parse.cutOffText]
    split
    case isTrue ht =>
      exact ⟨[], rfl, h.gathers_stop ((hgo h level).trans (congrArg (!·) ht)) _⟩
    case isFalse ht =>
      obtain ⟨ts, hvalue, hts⟩ := ih h.step (Gathering.expression.next level t)
      have hmore := (hgo h level).trans (congrArg (!·) (Bool.eq_false_iff.mpr ht))
      exact ⟨t :: ts, congrArg (t.value ++ ·) hvalue, h.gathers_more hmore hts⟩

theorem At.gathers_group (h : σ.At s depth ahead) (level : Int) : ∃ ts : List Token,
    (Parse.groupText level ahead).value = texts ts ∧
      Gathers .group (some level) σ ts (σ.behind (Parse.groupText level ahead)) := by
  have hgo : ∀ {σ : Session} {t : Token} {rest : List Token}, σ.At s depth (t :: rest) →
      ∀ level, Gathering.group.goesOn (some level) σ = decide (t.kind ≠ .endOfLine) := by
    intro σ t rest h level
    have hne := h.kind_ne t List.mem_cons_self
    simp [Gathering.group, h.current_eq, hne]
  induction ahead generalizing σ level with
  | nil =>
    refine ⟨[], rfl, h.gathers_stop ?_ _⟩
    simp [Gathering.group, h.current_eq, Setting.stop]
  | cons t rest ih =>
    have hnext : ∀ {q : Parsed Text rest} {ts : List Token}, q.value = texts ts →
        t.kind ≠ .endOfLine →
        Gathers .group (Gathering.group.next (some level) t) σ.step ts (σ.step.behind q) →
        ∃ ts : List Token, ((q.map (t.value ++ ·)).behindToken t).value = texts ts ∧
          Gathers .group (some level) σ ts (σ.behind ((q.map (t.value ++ ·)).behindToken t)) := by
      intro q ts hvalue hne hts
      refine ⟨t :: ts, congrArg (t.value ++ ·) hvalue, h.gathers_more ?_ hts⟩
      rw [hgo h, decide_eq_true hne]
    rw [Parse.groupText]
    split
    case isTrue ht => exact ⟨[], rfl, h.gathers_stop (by simp [hgo h, ht]) _⟩
    case isFalse ht =>
      split
      case isTrue hopen =>
        obtain ⟨ts, hvalue, hts⟩ := ih h.step (level + 1)
        refine hnext hvalue ht ?_
        simpa [Gathering.group, hopen] using hts
      case isFalse hopen =>
        split
        case isTrue hclose =>
          split
          case isTrue hlevel =>
            refine ⟨[t], (List.append_nil _).symm, h.gathers_more ?_ (h.step.gathers_stop ?_ _)⟩
            · rw [hgo h, decide_eq_true ht]
            · simp [Gathering.group, hclose, hlevel]
          case isFalse hlevel =>
            obtain ⟨ts, hvalue, hts⟩ := ih h.step (level - 1)
            refine hnext hvalue ht ?_
            simpa [Gathering.group, hclose, hlevel] using hts
        case isFalse hclose =>
          obtain ⟨ts, hvalue, hts⟩ := ih h.step level
          refine hnext hvalue ht ?_
          simpa [Gathering.group, hopen, hclose] using hts

/-! ## The answers, step by step -/

section

variable (hσ : σ.InBounds)
include hσ

theorem answer_value {left : Option Node} (hleft : σ.answer .operand = (left, τ)) :
    σ.answer .value = τ.answer (.chain left (height left) 0) := by
  rw [hσ.at.answer_eq, Prod.mk.injEq] at hleft
  obtain ⟨rfl, rfl⟩ := hleft
  rw [hσ.at.answer_eq, (hσ.at.behind _).answer_eq, behind_behind]
  simp only [Asked.parsed]
  rw [Parse.value]
  rfl

/-- The signs at hand are the ones that are read. -/
theorem signs_eq {signs : List Token} (hsigns : Gathers .signs () σ signs τ) :
    (Parse.signs σ.ahead).value = signs.map Token.value ∧ σ.behind (Parse.signs σ.ahead) = τ := by
  obtain ⟨ts, hvalue, hts⟩ := hσ.at.gathers_signs
  obtain ⟨rfl, hτ⟩ := hts.unique hsigns
  exact ⟨hvalue, hτ⟩

theorem answer_operand {signs : List Token} (hsigns : Gathers .signs () σ signs τ)
    (hroom : signs.length ≤ τ.room) : σ.answer .operand =
      Prod.map (withSigns (signs.map Token.value)) (shallower · signs.length)
        ((τ.deeper signs.length).answer .primary) := by
  obtain ⟨hvalue, rfl⟩ := signs_eq hσ hsigns
  have hτ := hσ.at.behind (Parse.signs σ.ahead)
  rw [hτ.room_eq] at hroom
  rw [hσ.at.answer_eq, (hτ.deeper _).answer_eq]
  simp only [Asked.parsed, Prod.map]
  rw [shallower_behind, behind_behind, Parse.operand, hvalue, List.length_map,
    if_neg (Nat.not_lt.mpr hroom)]
  rfl

theorem answer_deepSigns {signs : List Token} (hsigns : Gathers .signs () σ signs τ)
    (hroom : τ.room < signs.length) : σ.answer .operand =
      Prod.map (withSigns ((signs.map Token.value).take τ.room)) id
        ((τ.report ⟨.deepSigns τ.limits.maxDepth, τ.current.line⟩).answer
          (.cutOff ((signs.map Token.value).drop τ.room).flatten)) := by
  obtain ⟨hvalue, rfl⟩ := signs_eq hσ hsigns
  have hτ := hσ.at.behind (Parse.signs σ.ahead)
  rw [hτ.room_eq] at hroom ⊢
  rw [hσ.at.answer_eq, (hτ.report _).answer_eq, hτ.maxDepth_eq, hτ.current_eq]
  simp only [Asked.parsed, Prod.map, id]
  rw [behind_report, behind_behind, Parse.operand, hvalue, List.length_map, if_pos hroom]
  rfl

/-- An operand that is one token. -/
theorem answer_atom {n : Option Node} (hend : σ.current.kind ≠ .endOfFile)
    (h : ∀ s depth rest, Parse.primary s depth (σ.current :: rest) =
      (Parsed.pure n rest).behindToken σ.current) : σ.answer .primary = (n, σ.step) := by
  obtain ⟨rest, hat⟩ := hσ.exists_at hend
  rw [hat.answer_eq, hat.step_eq]
  simp only [Asked.parsed, h]
  rfl

theorem answer_number (hkind : σ.current.kind = .number) :
    σ.answer .primary = (some (.number σ.current.value), σ.step) :=
  answer_atom hσ (by rw [hkind]; decide) fun _ _ _ => by
    rw [Parse.primary.eq_def]
    simp only [hkind]

theorem answer_parameter (hkind : σ.current.kind = .parameter) :
    σ.answer .primary = (some (.parameter σ.current.value), σ.step) :=
  answer_atom hσ (by rw [hkind]; decide) fun _ _ _ => by
    rw [Parse.primary.eq_def]
    simp only [hkind]

theorem answer_word (hkind : σ.current.kind = .word) :
    σ.answer .primary = (some (.word σ.current.value none), σ.step) :=
  answer_atom hσ (by rw [hkind]; decide) fun _ _ _ => by
    rw [Parse.primary.eq_def]
    simp only [hkind]

theorem answer_primaryBracket (hkind : σ.current.kind = .openBracket) :
    σ.answer .primary = σ.answer .bracketed := by
  obtain ⟨rest, hat⟩ := hσ.exists_at (by rw [hkind]; decide)
  rw [hat.answer_eq, hat.answer_eq]
  simp only [Asked.parsed]
  rw [Parse.primary.eq_def]
  simp only [hkind, Parse.opened_eq_bracketed _ _ hkind]

theorem answer_noOperand
    (hkind : σ.current.kind ∉
      ([.number, .parameter, .word, .openBracket, .function] : List TokenKind)) :
    σ.answer .primary = (none, σ.report ⟨.missingOperand σ.current, σ.current.line⟩) := by
  have hat := hσ.at
  have hcurrent := hat.current_eq
  rw [hat.answer_eq, ← hat.behind_reporting (none : Option Node)]
  simp only [Asked.parsed]
  generalize σ.ahead = ahead at hat hcurrent ⊢
  rw [hcurrent] at hkind ⊢
  cases ahead with
  | nil => rw [Parse.primary.eq_def]; rfl
  | cons t rest =>
    rw [Parse.current_cons] at hkind ⊢
    rw [Parse.primary.eq_def]
    simp only
    generalize t.kind = kind at hkind
    cases kind <;> first | rfl | simp at hkind

theorem answer_bracketed (hdepth : ¬σ.limits.maxDepth ≤ σ.depth) {inner : Option Node}
    (hinner : ((σ.expect .openBracket).2.deeper 1).answer .value = (inner, τ)) :
    σ.answer .bracketed =
      (some (.bracketed inner ((τ.shallower 1).expect .closeBracket).1.isSome),
        ((τ.shallower 1).expect .closeBracket).2) := by
  have hopen := hσ.at.behind (Parse.expect σ.setting .openBracket σ.ahead)
  rw [hσ.at.maxDepth_eq] at hdepth
  rw [hσ.at.expect_eq, (hopen.deeper 1).answer_eq, Prod.mk.injEq] at hinner
  obtain ⟨rfl, rfl⟩ := hinner
  rw [hσ.at.answer_eq, shallower_behind, (hopen.behind _).expect_eq, behind_behind,
    behind_behind]
  simp only [Asked.parsed]
  rw [Parse.bracketed, if_neg hdepth]
  simp only [Parse.enclosed]
  rfl

theorem answer_deepBracket (hdepth : σ.limits.maxDepth ≤ σ.depth) : σ.answer .bracketed =
    (σ.report ⟨.deepBracket σ.limits.maxDepth, σ.current.line⟩).answer .bracketGroup := by
  rw [hσ.at.maxDepth_eq] at hdepth ⊢
  rw [hσ.at.answer_eq, (hσ.at.report _).answer_eq, behind_report]
  simp only [Asked.parsed]
  rw [Parse.bracketed, if_pos hdepth]
  rfl

theorem answer_bracketGroup {ts : List Token} (hts : Gathers .group (some 0) σ ts τ) :
    σ.answer .bracketGroup = (some (.unknown (texts ts) σ.current.line), τ) := by
  obtain ⟨us, hvalue, hus⟩ := hσ.at.gathers_group 0
  obtain ⟨rfl, rfl⟩ := hus.unique hts
  rw [hσ.at.answer_eq]
  simp only [Asked.parsed, Parse.bracketGroup, ← hvalue]
  rfl

theorem answer_optionalBracket (hkind : σ.current.kind = .openBracket) :
    σ.answer .optionalBracket = σ.answer .bracketed := by
  rw [hσ.at.answer_eq, hσ.at.answer_eq]
  simp only [Asked.parsed]
  rw [Parse.optionalBracket, if_pos (hσ.at.current_eq ▸ hkind)]

theorem answer_noBracket (hkind : σ.current.kind ≠ .openBracket) :
    σ.answer .optionalBracket = (none, σ) := by
  rw [hσ.at.answer_eq]
  simp only [Asked.parsed]
  rw [Parse.optionalBracket, if_neg (hσ.at.current_eq ▸ hkind), hσ.at.behind_pure]
  rfl

theorem answer_functionCall : σ.answer .functionCall =
    Prod.map (fun argument => some (.call σ.current.value argument)) id
      (σ.step.answer .optionalBracket) := by
  rw [hσ.at.answer_eq, hσ.at.step_eq, (hσ.at.behind _).answer_eq]
  simp only [Asked.parsed, Prod.map, id]
  rw [behind_behind, Parse.functionCall]
  rfl

theorem answer_primaryCall (hkind : σ.current.kind = .function) :
    σ.answer .primary = σ.answer .functionCall := by
  obtain ⟨rest, hat⟩ := hσ.exists_at (by rw [hkind]; decide)
  rw [answer_functionCall hσ, hat.answer_eq, hat.step_cons.answer_eq]
  simp only [Asked.parsed, Prod.map, id]
  rw [hat.step_behind, Parse.primary.eq_def]
  simp only [hkind]
  cases rest with
  | nil => rfl
  | cons u rest =>
    by_cases hopen : u.kind = .openBracket
    · have hbracket : Parse.optionalBracket σ.setting σ.depth (u :: rest) =
        (Parse.bracketed σ.setting σ.depth (u :: rest)).map some := if_pos hopen
      simp only [if_pos hopen, hbracket, Parse.opened_eq_bracketed _ _ hopen]
      rfl
    · have hbracket : Parse.optionalBracket σ.setting σ.depth (u :: rest) =
        Parsed.pure none (u :: rest) := if_neg hopen
      simp only [if_neg hopen, hbracket]
      rfl

variable {left right : Option Node} {size : Nat} {least bound : Int}

theorem answer_chainEnd (hbinds : binds σ.current least = false) :
    σ.answer (.chain left size least) = (left, σ) := by
  have hdone := @Parse.chain_done σ.setting σ.depth σ.ahead left least
    (fun _ ht => current_eq_of_mem_head? ht ▸ hbinds) size
  rw [hσ.at.answer_eq]
  exact Prod.ext hdone.value_eq
    ((behind_congr σ hdone.rest_eq hdone.reports_eq).trans (hσ.at.behind_pure left))

theorem InBounds.exists_at_of_binds (hbinds : binds σ.current least = true) :
    ∃ rest, σ.At σ.setting σ.depth (σ.current :: rest) :=
  hσ.exists_at (Parse.kind_ne_of_binds hbinds)

theorem answer_link (hbinds : binds σ.current least = true)
    (hdepth : ¬σ.limits.maxDepth ≤ σ.depth + size) {first right : Option Node}
    (hfirst : σ.step.answer .operand = (first, τ))
    (hright : τ.answer (.tighten first (precedence σ.current.value)) = (right, υ)) :
    σ.answer (.chain left size least) =
      υ.answer (.chain (some (.binary σ.current.value left right))
        (1 + max size (height right)) least) := by
  obtain ⟨rest, hat⟩ := hσ.exists_at_of_binds hbinds
  rw [hat.maxDepth_eq] at hdepth
  rw [hat.step_cons.answer_eq, Prod.mk.injEq] at hfirst
  obtain ⟨rfl, rfl⟩ := hfirst
  rw [(hat.step_cons.behind _).answer_eq, behind_behind, Prod.mk.injEq] at hright
  obtain ⟨rfl, rfl⟩ := hright
  rw [hat.answer_eq, (hat.step_cons.behind _).answer_eq, behind_behind, hat.step_behind]
  simp only [Asked.parsed]
  rw [Parse.chain, if_pos hbinds, Parse.link, if_neg hdepth]
  rfl

theorem answer_deepLink (hbinds : binds σ.current least = true)
    (hdepth : σ.limits.maxDepth ≤ σ.depth + size) :
    σ.answer (.chain left size least) =
      Prod.map (fun n => some (.binary σ.current.value left n)) id
        ((σ.step.report ⟨.deepChain σ.limits.maxDepth, σ.step.current.line⟩).answer
          (.cutOff [])) := by
  obtain ⟨rest, hat⟩ := hσ.exists_at_of_binds hbinds
  rw [hat.maxDepth_eq] at hdepth ⊢
  rw [hat.answer_eq, (hat.step_cons.report _).answer_eq, behind_report, hat.step_behind,
    hat.step_cons.current_eq]
  simp only [Asked.parsed, Prod.map, id]
  rw [Parse.chain, if_pos hbinds, Parse.link, if_pos hdepth]
  rfl

theorem answer_tightenEnd (hbinds : binds σ.current (bound + 1) = false) :
    σ.answer (.tighten right bound) = (right, σ) := by
  have hdone := @Parse.tighten_done σ.setting σ.depth σ.ahead right bound
    fun _ ht => current_eq_of_mem_head? ht ▸ hbinds
  rw [hσ.at.answer_eq]
  exact Prod.ext hdone.value_eq
    ((behind_congr σ hdone.rest_eq hdone.reports_eq).trans (hσ.at.behind_pure right))

theorem answer_tighten (hbinds : binds σ.current (bound + 1) = true) {tighter : Option Node}
    (htighter : σ.answer (.chain right (height right) (precedence σ.current.value)) =
      (tighter, τ)) :
    σ.answer (.tighten right bound) = τ.answer (.tighten tighter bound) := by
  obtain ⟨rest, hat⟩ := hσ.exists_at_of_binds hbinds
  have hbound : (isOperator σ.current && decide (bound < (precedence σ.current.value : Int))) =
    true := hbinds
  have hself := Parse.binds_precedence hbinds
  rw [hat.answer_eq, Prod.mk.injEq] at htighter
  obtain ⟨rfl, rfl⟩ := htighter
  rw [hat.answer_eq, (hat.behind _).answer_eq, behind_behind]
  simp only [Asked.parsed]
  rw [Parse.tighten, if_pos hbound, Parse.chain, if_pos hself]
  rfl

theorem answer_cutOff {text : Text} {ts : List Token} (hts : Gathers .expression 0 σ ts τ) :
    σ.answer (.cutOff text) = (some (.unknown (text ++ texts ts) σ.current.line), τ) := by
  obtain ⟨us, hvalue, hus⟩ := hσ.at.gathers_cutOff 0
  obtain ⟨rfl, rfl⟩ := hus.unique hts
  rw [hσ.at.answer_eq]
  simp only [Asked.parsed, Parse.cutOff, ← hvalue]
  rfl

end

theorem InBounds.report (hσ : σ.InBounds) {r : Report} : (σ.report r).InBounds := hσ

theorem InBounds.deeper (hσ : σ.InBounds) {n : Nat} : (σ.deeper n).InBounds := hσ

/-- What is answered is found ahead. -/
theorem InBounds.framed_answer (hσ : σ.InBounds) (a : Asked) : σ.Framed (σ.answer a).2 where
  tokens_eq := rfl
  limits_eq := rfl
  depth_eq := rfl
  position_le := by
    have hposition := hσ.at.position_eq
    have hlength := (a.parsed σ.setting σ.depth σ.ahead).length_rest_le
    rw [← hposition]
    exact Nat.sub_le_sub_left hlength _
  inBounds := Nat.sub_le _ _
  reports := List.prefix_append _ _

theorem Framed.length_ahead_le (h : σ.Framed τ) : τ.ahead.length ≤ σ.ahead.length := by
  rw [ahead, ahead, readable, readable, h.tokens_eq, List.length_drop, List.length_drop]
  exact Nat.sub_le_sub_left h.position_le _

/-- There is less ahead behind a token. -/
theorem InBounds.length_ahead_step_lt (hσ : σ.InBounds) (hend : σ.current.kind ≠ .endOfFile) :
    σ.step.ahead.length < σ.ahead.length := by
  obtain ⟨rest, hat⟩ := hσ.exists_at hend
  rw [hat.ahead_eq, hat.step_cons.ahead_eq]
  exact Nat.lt_succ_self _

/-- There is less ahead behind an operator that is served. -/
theorem InBounds.length_ahead_chain_lt (hσ : σ.InBounds) (left : Option Node) (size : Nat)
    {least : Int} (hbinds : binds σ.current least = true) :
    (σ.answer (.chain left size least)).2.ahead.length < σ.ahead.length := by
  obtain ⟨rest, hat⟩ := hσ.exists_at_of_binds hbinds
  rw [hat.answer_eq, (hat.behind _).ahead_eq, hat.ahead_eq]
  simp only [Asked.parsed]
  rw [Parse.chain, if_pos hbinds]
  exact Nat.lt_succ_of_le
    (Parse.link σ.setting σ.depth σ.current left size least rest).length_rest_le

end Session

/-! ## The steps lead to the answer -/

theorem Evaluates.answer_eq {a : Asked} {σ τ : Session} {n : Option Node}
    (h : Evaluates a σ n τ) (hσ : σ.InBounds) : σ.answer a = (n, τ) := by
  induction h with
  | value hleft _ ihleft ihchain =>
    rw [Session.answer_value hσ (ihleft hσ), ihchain (hleft.framed hσ).inBounds]
  | operand hsigns hroom _ ih =>
    rw [Session.answer_operand hσ hsigns hroom, ih (hsigns.framed hσ).inBounds]
    rfl
  | deepSigns hsigns hroom _ ih =>
    rw [Session.answer_deepSigns hσ hsigns hroom, ih (hsigns.framed hσ).inBounds]
    rfl
  | number hkind => exact Session.answer_number hσ hkind
  | parameter hkind => exact Session.answer_parameter hσ hkind
  | word hkind => exact Session.answer_word hσ hkind
  | primaryBracket hkind _ ih => rw [Session.answer_primaryBracket hσ hkind, ih hσ]
  | primaryCall hkind _ ih => rw [Session.answer_primaryCall hσ hkind, ih hσ]
  | noOperand hkind => exact Session.answer_noOperand hσ hkind
  | bracketed hdepth _ ih =>
    exact Session.answer_bracketed hσ hdepth (ih (Session.Framed.expect hσ .openBracket).inBounds)
  | deepBracket hdepth _ ih => rw [Session.answer_deepBracket hσ hdepth, ih hσ]
  | bracketGroup hts => exact Session.answer_bracketGroup hσ hts
  | optionalBracket hkind _ ih => rw [Session.answer_optionalBracket hσ hkind, ih hσ]
  | noBracket hkind => exact Session.answer_noBracket hσ hkind
  | functionCall _ ih =>
    rw [Session.answer_functionCall hσ, ih (Session.Framed.step hσ).inBounds]
    rfl
  | chainEnd hbinds => exact Session.answer_chainEnd hσ hbinds
  | link hbinds hdepth hfirst hright _ ihfirst ihright ihchain =>
    have hoperator := (Session.Framed.step hσ).inBounds
    have hbehind := (hfirst.framed hoperator).inBounds
    rw [Session.answer_link hσ hbinds hdepth (ihfirst hoperator) (ihright hbehind),
      ihchain (hright.framed hbehind).inBounds]
  | deepLink hbinds hdepth _ ih =>
    rw [Session.answer_deepLink hσ hbinds hdepth, ih (Session.Framed.step hσ).inBounds]
    rfl
  | tightenEnd hbinds => exact Session.answer_tightenEnd hσ hbinds
  | tighten hbinds htighter _ ihtighter ih =>
    rw [Session.answer_tighten hσ hbinds (ihtighter hσ), ih (htighter.framed hσ).inBounds]
  | cutOff hts => exact Session.answer_cutOff hσ hts

/-- The steps lead to one place only. -/
theorem Evaluates.unique {a : Asked} {σ τ υ : Session} {m n : Option Node}
    (h : Evaluates a σ m τ) (k : Evaluates a σ n υ) (hσ : σ.InBounds) : m = n ∧ τ = υ :=
  Prod.mk.inj ((h.answer_eq hσ).symm.trans (k.answer_eq hσ))

/-- What is asked first where nothing is read in between. -/
def Asked.rank : Asked → Nat
  | .bracketGroup | .cutOff _ => 0
  | .primary => 1
  | .operand => 2
  | .chain .. => 3
  | .tighten .. => 4
  | .value => 5
  | .bracketed => 6
  | .optionalBracket => 7
  | .functionCall => 8

namespace Session

/-- An expression in brackets is answered step by step if the one inside is. -/
theorem InBounds.evaluates_bracketed {σ : Session} (hσ : σ.InBounds)
    (hgroup : Evaluates .bracketGroup (σ.report ⟨.deepBracket σ.limits.maxDepth, σ.current.line⟩)
      ((σ.report ⟨.deepBracket σ.limits.maxDepth, σ.current.line⟩).answer .bracketGroup).1
      ((σ.report ⟨.deepBracket σ.limits.maxDepth, σ.current.line⟩).answer .bracketGroup).2)
    (hinner : Evaluates .value ((σ.expect .openBracket).2.deeper 1)
      (((σ.expect .openBracket).2.deeper 1).answer .value).1
      (((σ.expect .openBracket).2.deeper 1).answer .value).2) :
    Evaluates .bracketed σ (σ.answer .bracketed).1 (σ.answer .bracketed).2 := by
  by_cases hdepth : σ.limits.maxDepth ≤ σ.depth
  · rw [answer_deepBracket hσ hdepth]
    exact .deepBracket hdepth hgroup
  · rw [answer_bracketed hσ hdepth rfl]
    exact .bracketed hdepth hinner

/-- What is answered is read step by step. -/
theorem InBounds.evaluates {σ : Session} (hσ : σ.InBounds) (a : Asked) :
    Evaluates a σ (σ.answer a).1 (σ.answer a).2 := by
  match a with
  | .value =>
    have hleft := hσ.framed_answer .operand
    have hle := hleft.length_ahead_le
    rw [answer_value hσ rfl]
    exact .value (hσ.evaluates .operand) (hleft.inBounds.evaluates _)
  | .operand =>
    obtain ⟨signs, -, hsigns⟩ := hσ.at.gathers_signs
    have hfirst := hsigns.framed hσ
    have hle := hfirst.length_ahead_le
    rcases Nat.lt_or_ge (σ.behind (Parse.signs σ.ahead)).room signs.length with hroom | hroom
    · rw [answer_deepSigns hσ hsigns hroom]
      exact .deepSigns hsigns hroom (hfirst.inBounds.report.evaluates _)
    · rw [answer_operand hσ hsigns hroom]
      exact .operand hsigns hroom (hfirst.inBounds.deeper.evaluates _)
  | .primary =>
    by_cases hnumber : σ.current.kind = .number
    · rw [answer_number hσ hnumber]
      exact .number hnumber
    by_cases hparameter : σ.current.kind = .parameter
    · rw [answer_parameter hσ hparameter]
      exact .parameter hparameter
    by_cases hword : σ.current.kind = .word
    · rw [answer_word hσ hword]
      exact .word hword
    -- A bracket is not asked for here, where `.bracketed` is no smaller: what is inside is.
    by_cases hopen : σ.current.kind = .openBracket
    · have hlt : (σ.expect .openBracket).2.ahead.length < σ.ahead.length := by
        rw [expect, if_pos hopen]
        exact hσ.length_ahead_step_lt (by rw [hopen]; decide)
      rw [answer_primaryBracket hσ hopen]
      exact .primaryBracket hopen (hσ.evaluates_bracketed
        (hσ.report.evaluates _)
        ((Framed.expect hσ _).inBounds.deeper.evaluates _))
    by_cases hcall : σ.current.kind = .function
    · have hlt := hσ.length_ahead_step_lt (by rw [hcall]; decide)
      rw [answer_primaryCall hσ hcall, answer_functionCall hσ]
      exact .primaryCall hcall (.functionCall ((Framed.step hσ).inBounds.evaluates _))
    have hnone : σ.current.kind ∉
        ([.number, .parameter, .word, .openBracket, .function] : List TokenKind) := by
      simp only [List.mem_cons, List.not_mem_nil, or_false, not_or]
      exact ⟨hnumber, hparameter, hword, hopen, hcall⟩
    rw [answer_noOperand hσ hnone]
    exact .noOperand hnone
  | .bracketed =>
    have hopen := Framed.expect hσ .openBracket
    have hle := hopen.length_ahead_le
    exact hσ.evaluates_bracketed (hσ.report.evaluates _)
      (hopen.inBounds.deeper.evaluates _)
  | .bracketGroup =>
    obtain ⟨ts, -, hts⟩ := hσ.at.gathers_group 0
    rw [answer_bracketGroup hσ hts]
    exact .bracketGroup hts
  | .optionalBracket =>
    by_cases hkind : σ.current.kind = .openBracket
    · rw [answer_optionalBracket hσ hkind]
      exact .optionalBracket hkind (hσ.evaluates .bracketed)
    · rw [answer_noBracket hσ hkind]
      exact .noBracket hkind
  | .functionCall =>
    have hle := (Framed.step hσ).length_ahead_le
    rw [answer_functionCall hσ]
    exact .functionCall ((Framed.step hσ).inBounds.evaluates _)
  | .chain left size least =>
    cases hbinds : binds σ.current least
    case false =>
      rw [answer_chainEnd hσ hbinds]
      exact .chainEnd hbinds
    case true =>
      have hstep := Framed.step hσ
      have hlt := hσ.length_ahead_step_lt (Parse.kind_ne_of_binds hbinds)
      by_cases hdepth : σ.limits.maxDepth ≤ σ.depth + size
      · rw [answer_deepLink hσ hbinds hdepth]
        exact .deepLink hbinds hdepth
          (hstep.inBounds.report.evaluates _)
      · have hfirst := hstep.inBounds.framed_answer .operand
        have hright := hfirst.inBounds.framed_answer
          (.tighten (σ.step.answer .operand).1 (precedence σ.current.value))
        have hlt' := Nat.lt_of_le_of_lt hfirst.length_ahead_le hlt
        have hlt'' := Nat.lt_of_le_of_lt hright.length_ahead_le hlt'
        rw [answer_link hσ hbinds hdepth rfl rfl]
        exact .link hbinds hdepth (hstep.inBounds.evaluates _)
          (hfirst.inBounds.evaluates _) (hright.inBounds.evaluates _)
  | .tighten right bound =>
    cases hbinds : binds σ.current (bound + 1)
    case false =>
      rw [answer_tightenEnd hσ hbinds]
      exact .tightenEnd hbinds
    case true =>
      have htighter := hσ.framed_answer
        (.chain right (height right) (precedence σ.current.value))
      have hlt := hσ.length_ahead_chain_lt right (height right)
        (Parse.binds_precedence hbinds)
      rw [answer_tighten hσ hbinds rfl]
      exact .tighten hbinds (hσ.evaluates _) (htighter.inBounds.evaluates _)
  | .cutOff text =>
    obtain ⟨ts, -, hts⟩ := hσ.at.gathers_cutOff 0
    rw [answer_cutOff hσ hts]
    exact .cutOff hts
termination_by (σ.ahead.length, a.rank)
decreasing_by
  -- Either less is ahead, or as much at most and what is asked comes earlier.
  all_goals first
    | exact Prod.Lex.right _ (by simp [Asked.rank])
    | exact Prod.Lex.left _ _ ‹_›
    | exact Prod.Lex.right' _ ‹_› (by simp [Asked.rank])

end Session

/-- The steps lead to the answer of the parse function, and to nothing else. -/
theorem evaluates_iff {a : Asked} {σ τ : Session} {n : Option Node} (hσ : σ.InBounds) :
    Evaluates a σ n τ ↔ σ.answer a = (n, τ) := by
  refine ⟨fun h => h.answer_eq hσ, fun h => ?_⟩
  have hsteps := hσ.evaluates a
  rw [h] at hsteps
  exact hsteps

end Gcode
