import Gcode.Proofs.Node.Lines
import Gcode.Proofs.Parse.Expression

/-!
# Reading on

Tokens are read alone, and once more with further tokens behind them. If what is behind begins
with a line break, or if nothing is behind, then every expression is read as before: at a line
break nothing is read that would not be read at the end mark. The second parse may allow deeper
nesting, which changes nothing as long as the first one does not reach its limit.

What may differ are the lines of text that was cut off at the end, and reports that name the token
at the end or its line. So trees and reports are compared as far as a continuation lets them be
seen.

## Main definitions

* `Continuation` — two parses of the same tokens, of which the second reads on.
* `Continuation.Agrees` — the second parse comes to what the first comes to, and leaves more.
* `Continuation.Carries` — it does if the first parse makes no report that stands in the way.

## Main statements

* `Parse.value_carried` — the expression is the same, whatever is behind the line.
-/

namespace Gcode

open Reading (AtLineEnd)

/-- Two parses of the same tokens: one of these tokens alone, and one with `tail` behind them,
which begins with a line break if there is anything. Lines are seen through `line` and reports
through `report`, which does not show what token a report is about. -/
structure Continuation (β : Type) where
  /-- The setting in which the tokens are read alone. -/
  before : Setting
  /-- The setting in which they are read with more behind them. -/
  after : Setting
  tail : List Token
  line : Int → Int
  report : Report → β
  depth_le : before.maxDepth ≤ after.maxDepth
  atLineEnd : AtLineEnd tail
  report_eq : ∀ f : Token → Report, (∀ t u, (f t).kind = (f u).kind) →
    report (f (Parse.current after tail)) = report (f before.stop)

namespace Continuation

variable {β α γ δ ε : Type} (c : Continuation β)

/-- The report does not stand in the way of reading on: a limit that was reached is the same
afterwards, with the end on a line that looks the same, and a block that is not closed ends where
everything ends. -/
structure Permits (r : Report) : Prop where
  depth_eq : r.kind = .livenessGuard → c.after.maxDepth = c.before.maxDepth
  line_eq : r.kind = .livenessGuard →
    c.line (Parse.current c.after c.tail).line = c.line c.before.endLine
  tail_eq : r.kind = .unmatchedBlock → c.tail = []

/-- The second parse came to what the first came to, and left the tail as well. -/
structure Agrees (f : α → γ) {ahead ahead' : List Token} (p : Parsed α ahead)
    (q : Parsed α ahead') : Prop where
  value_eq : f q.value = f p.value
  rest_eq : q.rest = p.rest ++ c.tail
  reports_eq : q.reports.map c.report = p.reports.map c.report

/-- The second parse came to what the first came to, if no report stands in the way. -/
def Carries (f : α → γ) {ahead ahead' : List Token} (p : Parsed α ahead)
    (q : Parsed α ahead') : Prop :=
  (∀ r ∈ p.reports, c.Permits r) → c.Agrees f p q

variable {c} {f : α → γ} {g : δ → ε} {ahead ahead' : List Token}

namespace Agrees

theorem pure {v w : α} (hv : f w = f v) :
    c.Agrees f (Parsed.pure v ahead) (Parsed.pure w (ahead ++ c.tail)) := ⟨hv, rfl, rfl⟩

theorem reporting {v w : α} {r r' : Report} (hv : f w = f v) (hr : c.report r' = c.report r) :
    c.Agrees f (Parsed.reporting v r ahead) (Parsed.reporting w r' (ahead ++ c.tail)) :=
  ⟨hv, rfl, congrArg (fun x => [x]) hr⟩

theorem map {p : Parsed α ahead} {q : Parsed α ahead'} (h : c.Agrees f p q) {k l : α → δ}
    (hk : f q.value = f p.value → g (l q.value) = g (k p.value)) :
    c.Agrees g (p.map k) (q.map l) := ⟨hk h.value_eq, h.rest_eq, h.reports_eq⟩

theorem behind {p : Parsed α ahead} {q : Parsed α ahead'} (h : c.Agrees f p q)
    {p' : Parsed δ p.rest} {q' : Parsed δ q.rest} (k : c.Agrees g p' q') :
    c.Agrees g (p.behind p') (q.behind q') := by
  refine ⟨k.value_eq, k.rest_eq, ?_⟩
  simp only [Parsed.behind, List.map_append, h.reports_eq, k.reports_eq]

theorem behindToken {p : Parsed α ahead} {q : Parsed α ahead'} (h : c.Agrees f p q) (t u : Token) :
    c.Agrees f (p.behindToken t) (q.behindToken u) := ⟨h.value_eq, h.rest_eq, h.reports_eq⟩

theorem withReport {p : Parsed α ahead} {q : Parsed α ahead'} (h : c.Agrees f p q)
    {r r' : Report} (hr : c.report r' = c.report r) :
    c.Agrees f (p.withReport r) (q.withReport r') := by
  refine ⟨h.value_eq, h.rest_eq, ?_⟩
  simp only [Parsed.withReport, List.map_cons, hr, h.reports_eq]

end Agrees

namespace Carries

theorem behind {p : Parsed α ahead} {q : Parsed α ahead'} (h : c.Carries f p q)
    {p' : Parsed δ p.rest} {q' : Parsed δ q.rest} (k : c.Agrees f p q → c.Carries g p' q') :
    c.Carries g (p.behind p') (q.behind q') := by
  intro hpermits
  obtain ⟨hfirst, hsecond⟩ := List.forall_mem_append.mp hpermits
  exact (h hfirst).behind (k (h hfirst) hsecond)

/-- The same behind a first part that agrees in any case. -/
theorem behindAgrees {p : Parsed α ahead} {q : Parsed α ahead'} (h : c.Agrees f p q)
    {p' : Parsed δ p.rest} {q' : Parsed δ q.rest} (k : c.Carries g p' q') :
    c.Carries g (p.behind p') (q.behind q') := behind (fun _ => h) fun _ => k

theorem map {p : Parsed α ahead} {q : Parsed α ahead'} (h : c.Carries f p q) {k l : α → δ}
    (hk : f q.value = f p.value → g (l q.value) = g (k p.value)) :
    c.Carries g (p.map k) (q.map l) := fun hpermits => (h hpermits).map hk

theorem behindToken {p : Parsed α ahead} {q : Parsed α ahead'} (h : c.Carries f p q)
    (t u : Token) : c.Carries f (p.behindToken t) (q.behindToken u) :=
  fun hpermits => (h hpermits).behindToken t u

end Carries

end Continuation

namespace Parse

variable (s : Setting)

/-! ## The end of a line -/

section AtLineEnd

variable {tail : List Token} (h : AtLineEnd tail)
include h

theorem kind_of_atLineEnd :
    (current s tail).kind = .endOfFile ∨ (current s tail).kind = .endOfLine := by
  cases tail with
  | nil => exact .inl rfl
  | cons t rest => exact .inr (h t rfl)

theorem kind_ne_of_atLineEnd {kind : TokenKind} (hfile : kind ≠ .endOfFile)
    (hline : kind ≠ .endOfLine) : (current s tail).kind ≠ kind := by
  rcases kind_of_atLineEnd s h with hk | hk
  · rw [hk]
    exact hfile.symm
  · rw [hk]
    exact hline.symm

theorem restOfLine_of_atLineEnd : restOfLine tail = Parsed.pure [] tail := by
  cases tail with
  | nil => rfl
  | cons t rest => rw [restOfLine, if_pos (h t rfl)]

theorem groupText_of_atLineEnd (level : Int) : groupText level tail = Parsed.pure [] tail := by
  cases tail with
  | nil => rfl
  | cons t rest => rw [groupText, if_pos (h t rfl)]

theorem cutOffText_of_atLineEnd (level : Nat) :
    cutOffText s level tail = Parsed.pure [] tail := by
  cases tail with
  | nil => rfl
  | cons t rest =>
    have ht : t.kind = .endOfLine := h t rfl
    rw [cutOffText, if_pos (by simp [endsCommands, ht])]

theorem signs_of_atLineEnd : signs tail = Parsed.pure [] tail := by
  cases tail with
  | nil => rfl
  | cons t rest =>
    have ht : t.kind = .endOfLine := h t rfl
    rw [signs, if_neg (by simp [isSign, ht])]

theorem chain_of_atLineEnd (depth : Nat) (left : Option Node) (height : Nat) (least : Int) :
    chain s depth left height least tail = Parsed.pure left tail := by
  cases tail with
  | nil => rw [chain]
  | cons t rest =>
    have ht : t.kind = .endOfLine := h t rfl
    rw [chain, if_neg (by simp [binds, isOperator, ht])]

theorem tighten_of_atLineEnd (depth : Nat) (right : Option Node) (bound : Int) :
    tighten s depth right bound tail = Parsed.pure right tail := by
  cases tail with
  | nil => rw [tighten]
  | cons t rest =>
    have ht : t.kind = .endOfLine := h t rfl
    rw [tighten, if_neg (by simp [isOperator, ht])]

theorem primary_of_atLineEnd (depth : Nat) : primary s depth tail =
    Parsed.reporting none ⟨.missingOperand (current s tail), (current s tail).line⟩ tail := by
  cases tail with
  | nil => rw [primary]; rfl
  | cons t rest =>
    have ht : t.kind = .endOfLine := h t rfl
    rw [primary.eq_def]
    simp only [ht]
    rfl

end AtLineEnd

variable {β : Type} (c : Continuation β)

open Continuation (Agrees Carries)
open Node (relined relined?)

/-! ## The token at hand -/

theorem current_append {ahead : List Token} (hne : ahead ≠ []) :
    current c.after (ahead ++ c.tail) = current c.before ahead := by
  obtain ⟨t, rest, rfl⟩ := List.exists_cons_of_ne_nil hne
  rfl

theorem advance_carried {ahead : List Token} (hne : ahead ≠ []) :
    c.Agrees id (advance c.before ahead) (advance c.after (ahead ++ c.tail)) := by
  obtain ⟨t, rest, rfl⟩ := List.exists_cons_of_ne_nil hne
  exact ⟨rfl, rfl, rfl⟩

/-- Before the end mark, there are tokens. -/
theorem ne_nil_of_current {s : Setting} {ahead : List Token}
    (h : (current s ahead).kind ≠ .endOfFile) : ahead ≠ [] := by
  rintro rfl
  exact h rfl

theorem ne_nil_of_kind {s : Setting} {ahead : List Token} {kind : TokenKind}
    (h : (current s ahead).kind = kind) (hk : kind ≠ .endOfFile) : ahead ≠ [] := by
  refine ne_nil_of_current (s := s) ?_
  rwa [h]

/-- A report about the token at hand looks the same. -/
theorem report_current (f : Token → Report) (hf : ∀ t u, (f t).kind = (f u).kind)
    (ahead : List Token) :
    c.report (f (current c.after (ahead ++ c.tail))) = c.report (f (current c.before ahead)) := by
  cases ahead with
  | nil => exact c.report_eq f hf
  | cons t rest => rfl

/-- The line of the token at hand looks the same where a limit was reached. -/
theorem line_current {r : Report} (h : c.Permits r) (hr : r.kind = .livenessGuard)
    (ahead : List Token) :
    c.line (current c.after (ahead ++ c.tail)).line = c.line (current c.before ahead).line := by
  cases ahead with
  | nil => exact h.line_eq hr
  | cons t rest => rfl

theorem kind_current {kind : TokenKind} (hfile : kind ≠ .endOfFile) (hline : kind ≠ .endOfLine)
    (ahead : List Token) : (current c.after (ahead ++ c.tail)).kind = kind ↔
      (current c.before ahead).kind = kind := by
  cases ahead with
  | nil =>
    have hafter := kind_ne_of_atLineEnd c.after c.atLineEnd hfile hline
    have hbefore : (current c.before []).kind ≠ kind := hfile.symm
    exact iff_of_false hafter hbefore
  | cons t rest => exact Iff.rfl

theorem startsAssignment_append (ahead : List Token) :
    startsAssignment c.after (ahead ++ c.tail) = startsAssignment c.before ahead := by
  rw [Bool.eq_iff_iff]
  simp only [startsAssignment, Bool.and_eq_true, decide_eq_true_eq]
  rw [kind_current c (by decide) (by decide)]
  refine and_congr_right fun hk => ?_
  cases ahead with
  | nil => cases hk
  | cons t rest => exact kind_current c (by decide) (by decide) rest

theorem endsCommands_append (ahead : List Token) :
    endsCommands c.after (ahead ++ c.tail) = endsCommands c.before ahead := by
  cases ahead with
  | nil =>
    have hkind := kind_of_atLineEnd c.after c.atLineEnd
    have hbefore : endsCommands c.before [] = true := rfl
    rw [hbefore]
    rcases hkind with hk | hk <;> simp [endsCommands, hk]
  | cons t rest =>
    have hstarts := startsAssignment_append c (t :: rest)
    rw [List.cons_append] at hstarts ⊢
    rw [endsCommands, endsCommands, hstarts]
    rfl

/-- A token of a class that neither ends a line nor the program is asked for in the same way. -/
theorem expect_carried {kind : TokenKind} (hfile : kind ≠ .endOfFile) (hline : kind ≠ .endOfLine)
    (ahead : List Token) :
    c.Agrees id (expect c.before kind ahead) (expect c.after kind (ahead ++ c.tail)) := by
  have hkind := kind_current c hfile hline ahead
  rw [expect, expect]
  by_cases hk : (current c.before ahead).kind = kind
  · rw [if_pos hk, if_pos (hkind.mpr hk)]
    obtain ⟨t, rest, rfl, -⟩ := eq_cons_of_kind c.before hk hfile
    exact ⟨rfl, rfl, rfl⟩
  · rw [if_neg hk, if_neg fun h => hk (hkind.mp h)]
    exact .reporting rfl (report_current c (fun t => ⟨.missingToken kind t, t.line⟩)
      (fun _ _ => rfl) ahead)

/-! ## Runs of tokens that are kept as text -/

theorem restOfLine_carried (ahead : List Token) :
    c.Agrees id (restOfLine ahead) (restOfLine (ahead ++ c.tail)) := by
  induction ahead with
  | nil =>
    rw [List.nil_append, restOfLine_of_atLineEnd c.atLineEnd]
    exact .pure rfl
  | cons t rest ih =>
    rw [List.cons_append, restOfLine, restOfLine]
    split
    · exact @Agrees.pure _ _ _ c _ (t :: rest) _ _ rfl
    · refine (ih.map fun hv => ?_).behindToken t t
      exact congrArg (t.value ++ ·) hv

theorem cutOffText_carried (level : Nat) (ahead : List Token) :
    c.Agrees id (cutOffText c.before level ahead)
      (cutOffText c.after level (ahead ++ c.tail)) := by
  induction ahead generalizing level with
  | nil =>
    rw [List.nil_append, cutOffText_of_atLineEnd c.after c.atLineEnd]
    exact .pure rfl
  | cons t rest ih =>
    have hends := endsCommands_append c (t :: rest)
    rw [List.cons_append] at hends ⊢
    rw [cutOffText, cutOffText, hends]
    split
    · exact @Agrees.pure _ _ _ c _ (t :: rest) _ _ rfl
    · refine ((ih _).map fun hv => ?_).behindToken t t
      exact congrArg (t.value ++ ·) hv

theorem groupText_carried (level : Int) (ahead : List Token) :
    c.Agrees id (groupText level ahead) (groupText level (ahead ++ c.tail)) := by
  induction ahead generalizing level with
  | nil =>
    rw [List.nil_append, groupText_of_atLineEnd c.atLineEnd]
    exact .pure rfl
  | cons t rest ih =>
    have hmore : ∀ level, c.Agrees id ((groupText level rest).map (t.value ++ ·))
        ((groupText level (rest ++ c.tail)).map (t.value ++ ·)) :=
      fun level => (ih level).map fun hv => congrArg (t.value ++ ·) hv
    rw [List.cons_append, groupText, groupText]
    split
    · exact @Agrees.pure _ _ _ c _ (t :: rest) _ _ rfl
    split
    · exact (hmore _).behindToken t t
    split
    · split
      · exact (Agrees.pure rfl).behindToken t t
      · exact (hmore _).behindToken t t
    · exact (hmore _).behindToken t t

/-- Text is cut off at the same place, on a line that looks the same. -/
theorem cutOff_carried {r : Report} (h : c.Permits r) (hr : r.kind = .livenessGuard) (text : Text)
    (ahead : List Token) :
    c.Agrees (relined c.line) (cutOff c.before text ahead)
      (cutOff c.after text (ahead ++ c.tail)) := by
  refine (cutOffText_carried c 0 ahead).map fun hv => ?_
  have hmore : (cutOffText c.after 0 (ahead ++ c.tail)).value =
      (cutOffText c.before 0 ahead).value := hv
  rw [relined, relined, hmore, line_current c h hr]

theorem bracketGroup_carried (t : Token) (rest : List Token) :
    c.Agrees (relined c.line) (bracketGroup c.before (t :: rest))
      (bracketGroup c.after (t :: (rest ++ c.tail))) := by
  refine (groupText_carried c 0 (t :: rest)).map fun hv => ?_
  exact congrArg (fun text => Node.unknown text (c.line t.line)) hv

theorem unknown_carried {ahead : List Token} (hne : ahead ≠ []) :
    c.Agrees (relined c.line) (unknown c.before ahead)
      (unknown c.after (ahead ++ c.tail)) := by
  obtain ⟨t, rest, rfl⟩ := List.exists_cons_of_ne_nil hne
  rw [List.cons_append]
  have hmore := restOfLine_carried c rest
  have hvalue : (restOfLine (rest ++ c.tail)).value = (restOfLine rest).value := hmore.value_eq
  refine ⟨?_, hmore.rest_eq, ?_⟩
  · simp only [unknown, current_cons, List.tail_cons, hvalue]
  · simp only [unknown, current_cons, List.tail_cons, hvalue]
    rfl

/-! ## Expressions -/

theorem signs_carried (ahead : List Token) :
    c.Agrees id (signs ahead) (signs (ahead ++ c.tail)) := by
  induction ahead with
  | nil =>
    rw [List.nil_append, signs_of_atLineEnd c.atLineEnd]
    exact .pure rfl
  | cons t rest ih =>
    rw [List.cons_append, signs, signs]
    split
    · refine (ih.map fun hv => ?_).behindToken t t
      exact congrArg (t.value :: ·) hv
    · exact @Agrees.pure _ _ _ c _ (t :: rest) _ _ rfl

theorem withSigns_relined (g : Int → Int) (signs : List Text) {operand operand' : Option Node}
    (h : relined? g operand' = relined? g operand) :
    relined? g (withSigns signs operand') = relined? g (withSigns signs operand) := by
  induction signs with
  | nil => exact h
  | cons sign signs ih =>
    have hcons : ∀ operand, withSigns (sign :: signs) operand =
        some (.unary sign (withSigns signs operand)) := fun _ => rfl
    rw [hcons, hcons, Node.relined?_some, Node.relined?_some, relined, relined, ih]

/-- Trees that look the same are of the same height. -/
theorem height_eq_of_relined {g : Int → Int} {n m : Option Node}
    (h : relined? g n = relined? g m) : Node.height n = Node.height m := by
  rw [← Node.height_relined g n, h, Node.height_relined]

mutual

/-- An expression is read as before. -/
theorem value_carried (depth : Nat) (ahead : List Token) :
    c.Carries (relined? c.line) (value c.before depth ahead)
      (value c.after depth (ahead ++ c.tail)) := by
  have hleft := operand_carried depth ahead
  rw [value, value]
  refine hleft.behind fun hagrees => ?_
  rw [hagrees.rest_eq, height_eq_of_relined hagrees.value_eq]
  exact chain_carried depth hagrees.value_eq _ 0 _
termination_by (ahead.length, 4)
decreasing_by
  · exact Prod.Lex.right _ (by omega)
  · exact Prod.Lex.right' _ (Parsed.length_rest_le _) (by omega)

theorem operand_carried (depth : Nat) (ahead : List Token) :
    c.Carries (relined? c.line) (operand c.before depth ahead)
      (operand c.after depth (ahead ++ c.tail)) := by
  have hsigns := signs_carried c ahead
  have hvalue : (signs (ahead ++ c.tail)).value = (signs ahead).value := hsigns.value_eq
  have hprimary := primary_carried (depth + (signs ahead).value.length) (signs ahead).rest
  have hdepth := c.depth_le
  intro hpermits
  rw [operand] at hpermits ⊢
  rw [operand]
  dsimp only at hpermits ⊢
  rw [hvalue]
  by_cases hroom : (c.before.maxDepth - depth).toNat < (signs ahead).value.length
  · rw [if_pos hroom] at hpermits ⊢
    have hpermit := hpermits ⟨.deepSigns c.before.maxDepth,
      (current c.before (signs ahead).rest).line⟩ (by simp [Parsed.behind, Parsed.map,
        Parsed.withReport])
    rw [hpermit.depth_eq rfl, if_pos hroom]
    have hcut := cutOff_carried c hpermit rfl
      ((signs ahead).value.drop (c.before.maxDepth - depth).toNat).flatten (signs ahead).rest
    rw [← hsigns.rest_eq] at hcut
    refine (hsigns.behind (hcut.withReport ?_)).map fun hv => withSigns_relined c.line _ ?_
    · rw [hsigns.rest_eq]
      exact report_current c (fun t => ⟨.deepSigns c.before.maxDepth, t.line⟩) (fun _ _ => rfl) _
    · exact congrArg some hv
  · rw [if_neg hroom] at hpermits ⊢
    rw [if_neg (by omega)]
    rw [← hsigns.rest_eq] at hprimary
    have hbehind := Carries.behindAgrees hsigns hprimary
    exact (hbehind hpermits).map fun hv => withSigns_relined c.line _ hv
termination_by (ahead.length, 2)
decreasing_by exact Prod.Lex.right' _ (Parsed.length_rest_le _) (by omega)

theorem primary_carried (depth : Nat) (ahead : List Token) :
    c.Carries (relined? c.line) (primary c.before depth ahead)
      (primary c.after depth (ahead ++ c.tail)) := by
  match ahead with
  | [] =>
    intro _
    rw [List.nil_append, primary_of_atLineEnd c.after c.atLineEnd, primary]
    exact @Agrees.reporting _ _ _ c _ [] _ _ _ _ rfl
      (c.report_eq (fun t => ⟨.missingOperand t, t.line⟩) fun _ _ => rfl)
  | t :: rest =>
    rw [List.cons_append, primary.eq_def, primary.eq_def]
    dsimp only
    split
    case h_1 => exact fun _ => (Agrees.pure rfl).behindToken t t
    case h_2 => exact fun _ => (Agrees.pure rfl).behindToken t t
    case h_3 => exact (opened_carried depth t rest).map fun hv => congrArg some hv
    case h_4 =>
      cases rest with
      | nil =>
        intro _
        have hend := c.atLineEnd
        rw [List.nil_append]
        generalize htail : c.tail = tail at hend ⊢
        cases tail with
        | nil => exact ⟨rfl, htail.symm, rfl⟩
        | cons u more =>
          have hu : u.kind = .endOfLine := hend u rfl
          dsimp only
          rw [if_neg (by rw [hu]; decide)]
          exact ⟨rfl, htail.symm, rfl⟩
      | cons u more =>
        rw [List.cons_append]
        dsimp only
        split
        · refine ((opened_carried depth u more).map fun hv => ?_).behindToken t t
          exact congrArg (fun n => some (Node.call t.value (some n))) hv
        · exact fun _ => (@Agrees.pure _ _ _ c _ (u :: more) _ _ rfl).behindToken t t
    case h_5 => exact fun _ => (Agrees.pure rfl).behindToken t t
    case h_6 => exact fun _ => @Agrees.reporting _ _ _ c _ (t :: rest) _ _ _ _ rfl rfl
termination_by (ahead.length, 1)
decreasing_by
  · exact Prod.Lex.right _ (by omega)
  · exact Prod.Lex.left _ _ (by simp)

theorem opened_carried (depth : Nat) (t : Token) (rest : List Token) :
    c.Carries (relined c.line) (opened c.before depth t rest)
      (opened c.after depth t (rest ++ c.tail)) := by
  have hdepth := c.depth_le
  intro hpermits
  rw [opened] at hpermits ⊢
  rw [opened]
  by_cases hroom : c.before.maxDepth ≤ depth
  · rw [if_pos hroom] at hpermits ⊢
    have hpermit := hpermits ⟨.deepBracket c.before.maxDepth, t.line⟩
      (by simp [Parsed.withReport])
    rw [hpermit.depth_eq rfl, if_pos hroom]
    exact (bracketGroup_carried c t rest).withReport rfl
  · rw [if_neg hroom] at hpermits ⊢
    rw [if_neg (by omega)]
    exact (enclosed_carried depth rest).behindToken t t hpermits
termination_by (rest.length + 1, 0)
decreasing_by exact Prod.Lex.left _ _ (by simp)

theorem enclosed_carried (depth : Nat) (ahead : List Token) :
    c.Carries (relined c.line) (enclosed c.before depth ahead)
      (enclosed c.after depth (ahead ++ c.tail)) := by
  have hinner := value_carried (depth + 1) ahead
  rw [enclosed, enclosed]
  intro hpermits
  obtain ⟨hfirst, -⟩ := List.forall_mem_append.mp hpermits
  have hagrees := hinner hfirst
  have hclose := @expect_carried _ c .closeBracket (by decide) (by decide)
    (value c.before (depth + 1) ahead).rest
  rw [← hagrees.rest_eq] at hclose
  refine (hagrees.behind hclose).map fun hv => ?_
  have hsome : (expect c.after .closeBracket
      (value c.after (depth + 1) (ahead ++ c.tail)).rest).value =
      (expect c.before .closeBracket (value c.before (depth + 1) ahead).rest).value := hv
  dsimp only [Parsed.behind]
  rw [hsome, relined, relined, hagrees.value_eq]
termination_by (ahead.length, 5)
decreasing_by exact Prod.Lex.right _ (by omega)

theorem chain_carried (depth : Nat) {left left' : Option Node}
    (hleft : relined? c.line left' = relined? c.line left) (height : Nat) (least : Int)
    (ahead : List Token) :
    c.Carries (relined? c.line) (chain c.before depth left height least ahead)
      (chain c.after depth left' height least (ahead ++ c.tail)) := by
  match ahead with
  | [] =>
    rw [List.nil_append, chain_of_atLineEnd c.after c.atLineEnd, chain]
    exact fun _ => @Agrees.pure _ _ _ c _ [] _ _ hleft
  | t :: rest =>
    rw [List.cons_append, chain, chain]
    split
    · exact (link_carried depth t hleft height least rest).behindToken t t
    · exact fun _ => @Agrees.pure _ _ _ c _ (t :: rest) _ _ hleft
termination_by (ahead.length, 3)
decreasing_by exact Prod.Lex.left _ _ (by simp)

theorem link_carried (depth : Nat) (t : Token) {left left' : Option Node}
    (hleft : relined? c.line left' = relined? c.line left) (height : Nat) (least : Int)
    (ahead : List Token) :
    c.Carries (relined? c.line) (link c.before depth t left height least ahead)
      (link c.after depth t left' height least (ahead ++ c.tail)) := by
  have hdepth := c.depth_le
  intro hpermits
  rw [link] at hpermits ⊢
  rw [link]
  by_cases hroom : c.before.maxDepth ≤ depth + height
  · rw [if_pos hroom] at hpermits ⊢
    have hpermit := hpermits ⟨.deepChain c.before.maxDepth, (current c.before ahead).line⟩
      (by simp [Parsed.map, Parsed.withReport])
    rw [hpermit.depth_eq rfl, if_pos hroom]
    refine ((cutOff_carried c hpermit rfl [] ahead).withReport ?_).map fun hv => ?_
    · exact report_current c (fun t => ⟨.deepChain c.before.maxDepth, t.line⟩) (fun _ _ => rfl) _
    · rw [Node.relined?_some, Node.relined?_some, relined, relined, hleft]
      exact congrArg (fun n => some (Node.binary t.value _ (some n))) hv
  · rw [if_neg hroom] at hpermits ⊢
    rw [if_neg (by omega)]
    have hright := (operand_carried depth ahead).behind fun hagrees => by
      have htighten := tighten_carried depth hagrees.value_eq (Keyword.precedence t.value)
        (operand c.before depth ahead).rest
      rwa [← hagrees.rest_eq] at htighten
    refine (hright.behind fun hagrees => ?_) hpermits
    rw [hagrees.rest_eq, height_eq_of_relined hagrees.value_eq]
    refine chain_carried depth ?_ _ least _
    rw [Node.relined?_some, Node.relined?_some, relined, relined, hleft, hagrees.value_eq]
termination_by (ahead.length, 5)
decreasing_by
  · exact Prod.Lex.right _ (by omega)
  · exact Prod.Lex.right' _ (Parsed.length_rest_le _) (by omega)
  · exact Prod.Lex.right' _ (Parsed.length_rest_le _) (by omega)

theorem tighten_carried (depth : Nat) {right right' : Option Node}
    (hright : relined? c.line right' = relined? c.line right) (bound : Int)
    (ahead : List Token) :
    c.Carries (relined? c.line) (tighten c.before depth right bound ahead)
      (tighten c.after depth right' bound (ahead ++ c.tail)) := by
  match ahead with
  | [] =>
    rw [List.nil_append, tighten_of_atLineEnd c.after c.atLineEnd, tighten]
    exact fun _ => @Agrees.pure _ _ _ c _ [] _ _ hright
  | t :: rest =>
    rw [List.cons_append, tighten, tighten, height_eq_of_relined hright]
    split
    · have hlink := (link_carried depth t hright (Node.height right) (Keyword.precedence t.value)
        rest).behindToken t t
      refine hlink.behind fun hagrees => ?_
      rw [hagrees.rest_eq]
      exact tighten_carried depth hagrees.value_eq bound _
    · exact fun _ => @Agrees.pure _ _ _ c _ (t :: rest) _ _ hright
termination_by (ahead.length, 3)
decreasing_by
  · exact Prod.Lex.left _ _ (by simp)
  · refine Prod.Lex.left _ _ ?_
    exact Nat.lt_succ_of_le (@Parsed.length_rest_le _ rest _)

end

/-! ## Expressions read without a look at the token at hand -/

theorem bracketed_carried (depth : Nat) {ahead : List Token}
    (hk : (current c.before ahead).kind = .openBracket) :
    c.Carries (relined c.line) (bracketed c.before depth ahead)
      (bracketed c.after depth (ahead ++ c.tail)) := by
  obtain ⟨t, rest, rfl, ht⟩ := eq_cons_of_kind c.before hk (by decide)
  rw [List.cons_append, ← opened_eq_bracketed c.before depth ht,
    ← opened_eq_bracketed c.after depth ht]
  exact opened_carried c depth t rest

theorem optionalBracket_carried (depth : Nat) (ahead : List Token) :
    c.Carries (relined? c.line) (optionalBracket c.before depth ahead)
      (optionalBracket c.after depth (ahead ++ c.tail)) := by
  have hkind := @kind_current _ c .openBracket (by decide) (by decide) ahead
  rw [optionalBracket, optionalBracket]
  by_cases hk : (current c.before ahead).kind = .openBracket
  · rw [if_pos hk, if_pos (hkind.mpr hk)]
    exact (bracketed_carried c depth hk).map fun hv => congrArg some hv
  · rw [if_neg hk, if_neg fun h => hk (hkind.mp h)]
    exact fun _ => .pure rfl

theorem functionCall_carried (depth : Nat) {ahead : List Token} (hne : ahead ≠ []) :
    c.Carries (relined c.line) (functionCall c.before depth ahead)
      (functionCall c.after depth (ahead ++ c.tail)) := by
  have hname := advance_carried c hne
  have hargument := optionalBracket_carried c depth (advance c.before ahead).rest
  rw [← hname.rest_eq] at hargument
  have hvalue : (advance c.after (ahead ++ c.tail)).value = (advance c.before ahead).value :=
    hname.value_eq
  refine (Carries.behindAgrees hname hargument).map fun hv => ?_
  rw [hvalue, relined, relined, hv]

end Parse

end Gcode
