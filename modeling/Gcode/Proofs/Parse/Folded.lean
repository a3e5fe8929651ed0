import Gcode.Parse.Expression
import Gcode.Proofs.Node.Folded
import Gcode.Proofs.Token.Folded

/-!
# Reading expressions without regard to case

Every parse function commutes with folding: from folded tokens it reads the folded tree, leaves
the folded tokens, and reports the same, with the program text in the reports folded.

## Main definitions

* `Parsed.Folds` — one parse comes to what another comes to, folded.

## Main statements

* `Parse.value_folds` — the expression read from folded tokens.
-/

namespace Gcode

/-- The setting with the text of its end mark folded. -/
def Setting.folded (s : Setting) : Setting := { s with endValue := Text.folded s.endValue }

namespace Parsed

/-- What the second parse came to is what the first came to, folded. -/
structure Folds {α : Type} (f : α → α) {ahead ahead' : List Token} (p : Parsed α ahead)
    (q : Parsed α ahead') : Prop where
  value_eq : q.value = f p.value
  rest_eq : q.rest = p.rest.map Token.folded
  reports_eq : q.reports = p.reports.map Report.folded

namespace Folds

variable {α β : Type} {f : α → α} {g : β → β} {ahead ahead' : List Token}

theorem pure {v w : α} (hv : w = f v) :
    Folds f (Parsed.pure v ahead) (Parsed.pure w (ahead.map Token.folded)) := ⟨hv, rfl, rfl⟩

theorem reporting {v w : α} {r r' : Report} (hv : w = f v) (hr : r' = r.folded) :
    Folds f (Parsed.reporting v r ahead) (Parsed.reporting w r' (ahead.map Token.folded)) :=
  ⟨hv, rfl, congrArg (fun x => [x]) hr⟩

theorem map {p : Parsed α ahead} {q : Parsed α ahead'} (h : Folds f p q) {k l : α → β}
    (hk : ∀ v, l (f v) = g (k v)) : Folds g (p.map k) (q.map l) :=
  ⟨(congrArg l h.value_eq).trans (hk p.value), h.rest_eq, h.reports_eq⟩

theorem behind {p : Parsed α ahead} {q : Parsed α ahead'} (h : Folds f p q)
    {p' : Parsed β p.rest} {q' : Parsed β q.rest} (k : Folds g p' q') :
    Folds g (p.behind p') (q.behind q') := by
  refine ⟨k.value_eq, k.rest_eq, ?_⟩
  simp only [Parsed.behind, h.reports_eq, k.reports_eq, List.map_append]

theorem behindToken {p : Parsed α ahead} {q : Parsed α ahead'} (h : Folds f p q) (t u : Token) :
    Folds f (p.behindToken t) (q.behindToken u) := ⟨h.value_eq, h.rest_eq, h.reports_eq⟩

theorem withReport {p : Parsed α ahead} {q : Parsed α ahead'} (h : Folds f p q) {r r' : Report}
    (hr : r' = r.folded) : Folds f (p.withReport r) (q.withReport r') := by
  refine ⟨h.value_eq, h.rest_eq, ?_⟩
  simp only [Parsed.withReport, hr, h.reports_eq, List.map_cons]

end Folds

end Parsed

namespace Parse

open Parsed (Folds)

variable (s : Setting)

/-! ## The token at hand -/

@[simp] theorem current_folded (ahead : List Token) :
    current s.folded (ahead.map Token.folded) = (current s ahead).folded := by
  cases ahead <;> rfl

theorem advance_folds (ahead : List Token) :
    Folds Token.folded (advance s ahead) (advance s.folded (ahead.map Token.folded)) :=
  ⟨current_folded s ahead, List.map_tail.symm, rfl⟩

theorem expect_folds (kind : TokenKind) (ahead : List Token) :
    Folds (Option.map Token.folded) (expect s kind ahead)
      (expect s.folded kind (ahead.map Token.folded)) := by
  simp only [expect, current_folded, Token.kind_folded]
  split
  · exact (advance_folds s ahead).map fun _ => rfl
  · exact .reporting rfl rfl

@[simp] theorem isOWord_folded (t : Token) : isOWord t.folded = isOWord t := by
  rw [isOWord, isOWord, Token.kind_folded, Token.value_folded, Text.lower_folded]

@[simp] theorem startsAssignment_folded (ahead : List Token) :
    startsAssignment s.folded (ahead.map Token.folded) = startsAssignment s ahead := by
  simp only [startsAssignment, current_folded, ← List.map_tail, Token.kind_folded]

@[simp] theorem endsCommands_folded (ahead : List Token) :
    endsCommands s.folded (ahead.map Token.folded) = endsCommands s ahead := by
  simp [endsCommands]

@[simp] theorem isSign_folded (t : Token) : isSign t.folded = isSign t := by
  have plus := @Text.folded_eq_iff ['+'] (by decide) t.value
  have minus := @Text.folded_eq_iff ['-'] (by decide) t.value
  have hsign : Keyword.isSign (Text.folded t.value) = Keyword.isSign t.value := by
    rw [Bool.eq_iff_iff]
    simp [Keyword.isSign, plus, minus]
  rw [isSign, isSign, Token.kind_folded, Token.value_folded, hsign]

@[simp] theorem startsValue_folded (t : Token) : startsValue t.folded = startsValue t := by
  rw [startsValue, startsValue, Token.kind_folded, isSign_folded]

@[simp] theorem isOperator_folded (t : Token) : isOperator t.folded = isOperator t := rfl

@[simp] theorem precedence_folded (t : Text) :
    Keyword.precedence (Text.folded t) = Keyword.precedence t := by
  simp [Keyword.precedence]

@[simp] theorem binds_folded (t : Token) (least : Int) : binds t.folded least = binds t least := by
  simp [binds]

/-! ## Runs of tokens that are kept as text -/

theorem restOfLine_folds (ahead : List Token) :
    Folds Text.folded (restOfLine ahead) (restOfLine (ahead.map Token.folded)) := by
  induction ahead with
  | nil => exact .pure rfl
  | cons t rest ih =>
    rw [List.map_cons, restOfLine, restOfLine, Token.kind_folded]
    split
    · exact @Folds.pure _ _ (t :: rest) _ _ rfl
    · exact (ih.map fun v => by simp).behindToken t t.folded

theorem restOfProgram_folds (ahead : List Token) :
    Folds Text.folded (restOfProgram ahead) (restOfProgram (ahead.map Token.folded)) := by
  induction ahead with
  | nil => exact .pure rfl
  | cons t rest ih => exact (ih.map fun v => by simp).behindToken t t.folded

theorem cutOffText_folds (level : Nat) (ahead : List Token) :
    Folds Text.folded (cutOffText s level ahead)
      (cutOffText s.folded level (ahead.map Token.folded)) := by
  induction ahead generalizing level with
  | nil => exact .pure rfl
  | cons t rest ih =>
    have hends := endsCommands_folded s (t :: rest)
    rw [List.map_cons] at hends ⊢
    rw [cutOffText, cutOffText, hends, Token.kind_folded]
    split
    · exact @Folds.pure _ _ (t :: rest) _ _ rfl
    · exact ((ih _).map fun v => by simp).behindToken t t.folded

theorem groupText_folds (level : Int) (ahead : List Token) :
    Folds Text.folded (groupText level ahead) (groupText level (ahead.map Token.folded)) := by
  induction ahead generalizing level with
  | nil => exact .pure rfl
  | cons t rest ih =>
    have hmore : ∀ level, Folds Text.folded ((groupText level rest).map (t.value ++ ·))
        ((groupText level (rest.map Token.folded)).map (t.folded.value ++ ·)) :=
      fun level => (ih level).map fun v => by simp
    rw [List.map_cons, groupText, groupText, Token.kind_folded]
    split
    · exact @Folds.pure _ _ (t :: rest) _ _ rfl
    split
    · exact (hmore _).behindToken t t.folded
    split
    · split
      · exact (Folds.pure rfl).behindToken t t.folded
      · exact (hmore _).behindToken t t.folded
    · exact (hmore _).behindToken t t.folded

theorem cutOff_folds (text : Text) (ahead : List Token) :
    Folds Node.folded (cutOff s text ahead)
      (cutOff s.folded (Text.folded text) (ahead.map Token.folded)) := by
  refine (cutOffText_folds s 0 ahead).map fun v => ?_
  simp [Node.folded]

theorem bracketGroup_folds (ahead : List Token) :
    Folds Node.folded (bracketGroup s ahead) (bracketGroup s.folded (ahead.map Token.folded)) := by
  refine (groupText_folds 0 ahead).map fun v => ?_
  simp [Node.folded]

theorem unknown_folds (ahead : List Token) :
    Folds Node.folded (unknown s ahead) (unknown s.folded (ahead.map Token.folded)) := by
  have hmore := restOfLine_folds ahead.tail
  rw [List.map_tail] at hmore
  have htext : (current s.folded (ahead.map Token.folded)).value ++
      (restOfLine (ahead.map Token.folded).tail).value =
      Text.folded ((current s ahead).value ++ (restOfLine ahead.tail).value) := by
    rw [current_folded, hmore.value_eq, Text.folded_append, Token.value_folded]
  refine ⟨?_, hmore.rest_eq, ?_⟩
  · simp only [unknown, Node.folded]
    rw [htext, current_folded, Token.line_folded]
  · simp only [unknown]
    rw [htext, current_folded, Token.line_folded, Text.isBlankOnly_folded]
    split <;> rfl

theorem remainder_folds (ahead : List Token) :
    Folds Node.folded (remainder s ahead) (remainder s.folded (ahead.map Token.folded)) := by
  refine (restOfProgram_folds ahead).map fun v => ?_
  simp [Node.folded]

/-! ## Expressions -/

theorem signs_folds (ahead : List Token) :
    Folds (List.map Text.folded) (signs ahead) (signs (ahead.map Token.folded)) := by
  induction ahead with
  | nil => exact .pure rfl
  | cons t rest ih =>
    rw [List.map_cons, signs, signs, isSign_folded]
    split
    · refine (ih.map ?_).behindToken t t.folded
      exact fun v => rfl
    · exact @Folds.pure _ _ (t :: rest) _ _ rfl

theorem withSigns_folded (signs : List Text) (operand : Option Node) :
    withSigns (signs.map Text.folded) (Node.folded? operand) =
      Node.folded? (withSigns signs operand) := by
  induction signs with
  | nil => rfl
  | cons sign signs ih =>
    have hcons : ∀ (sign : Text) (signs : List Text) (operand : Option Node),
        withSigns (sign :: signs) operand = some (.unary sign (withSigns signs operand)) :=
      fun _ _ _ => rfl
    rw [List.map_cons, hcons, hcons, ih]
    rfl

theorem flatten_folded (ts : List Text) :
    (ts.map Text.folded).flatten = Text.folded ts.flatten := by
  induction ts with
  | nil => rfl
  | cons t ts ih => simp [ih]

mutual

/-- An expression is read from folded tokens as the folded expression. -/
theorem value_folds (depth : Nat) (ahead : List Token) :
    Folds Node.folded? (value s depth ahead) (value s.folded depth (ahead.map Token.folded)) := by
  have hleft := operand_folds depth ahead
  have hchain := chain_folds depth (operand s depth ahead).value
    (Node.height (operand s depth ahead).value) 0 (operand s depth ahead).rest
  rw [value, value]
  refine hleft.behind ?_
  rw [hleft.value_eq, hleft.rest_eq, Node.height_folded]
  exact hchain
termination_by (ahead.length, 4)
decreasing_by
  · exact Prod.Lex.right _ (by omega)
  · exact Prod.Lex.right' _ (Parsed.length_rest_le _) (by omega)

theorem operand_folds (depth : Nat) (ahead : List Token) :
    Folds Node.folded? (operand s depth ahead)
      (operand s.folded depth (ahead.map Token.folded)) := by
  have hsigns := signs_folds ahead
  have hlength : (signs (ahead.map Token.folded)).value.length = (signs ahead).value.length := by
    rw [hsigns.value_eq, List.length_map]
  have hprimary := primary_folds (depth + (signs ahead).value.length) (signs ahead).rest
  rw [operand, operand]
  dsimp only
  rw [hlength]
  have hroom : s.folded.maxDepth = s.maxDepth := rfl
  rw [hroom]
  split
  · have hcut := cutOff_folds s ((signs ahead).value.drop (s.maxDepth - depth).toNat).flatten
      (signs ahead).rest
    rw [← flatten_folded, List.map_drop, ← hsigns.value_eq, ← hsigns.rest_eq] at hcut
    refine (hsigns.behind (hcut.withReport ?_)).map fun v => ?_
    · rw [hsigns.rest_eq, current_folded]
      rfl
    · rw [hsigns.value_eq, ← List.map_take, ← withSigns_folded]
      rfl
  · rw [← hsigns.rest_eq] at hprimary
    refine (hsigns.behind hprimary).map fun v => ?_
    rw [hsigns.value_eq, withSigns_folded]
termination_by (ahead.length, 2)
decreasing_by exact Prod.Lex.right' _ (Parsed.length_rest_le _) (by omega)

theorem primary_folds (depth : Nat) (ahead : List Token) :
    Folds Node.folded? (primary s depth ahead)
      (primary s.folded depth (ahead.map Token.folded)) := by
  match ahead with
  | [] =>
    rw [List.map_nil, primary, primary]
    exact @Folds.reporting _ _ [] _ _ _ _ rfl rfl
  | t :: rest =>
    rw [List.map_cons, primary.eq_def, primary.eq_def]
    dsimp only
    rw [Token.kind_folded]
    split
    case h_1 => exact (Folds.pure rfl).behindToken t t.folded
    case h_2 => exact (Folds.pure rfl).behindToken t t.folded
    case h_3 => exact (opened_folds depth t rest).map fun v => rfl
    case h_4 =>
      cases rest with
      | nil => exact (@Folds.pure _ _ [] _ _ rfl).behindToken t t.folded
      | cons u more =>
        rw [List.map_cons]
        dsimp only
        rw [Token.kind_folded]
        split
        · refine ((opened_folds depth u more).map ?_).behindToken t t.folded
          exact fun v => rfl
        · exact (@Folds.pure _ _ (u :: more) _ _ rfl).behindToken t t.folded
    case h_5 => exact (Folds.pure rfl).behindToken t t.folded
    case h_6 => exact @Folds.reporting _ _ (t :: rest) _ _ _ _ rfl rfl
termination_by (ahead.length, 1)
decreasing_by
  · exact Prod.Lex.right _ (by omega)
  · exact Prod.Lex.left _ _ (by simp)

theorem opened_folds (depth : Nat) (t : Token) (rest : List Token) :
    Folds Node.folded (opened s depth t rest)
      (opened s.folded depth t.folded (rest.map Token.folded)) := by
  have hroom : s.folded.maxDepth = s.maxDepth := rfl
  rw [opened, opened, hroom]
  split
  · exact (bracketGroup_folds s (t :: rest)).withReport rfl
  · exact (enclosed_folds depth rest).behindToken t t.folded
termination_by (rest.length + 1, 0)
decreasing_by exact Prod.Lex.left _ _ (by simp)

theorem enclosed_folds (depth : Nat) (ahead : List Token) :
    Folds Node.folded (enclosed s depth ahead)
      (enclosed s.folded depth (ahead.map Token.folded)) := by
  have hinner := value_folds (depth + 1) ahead
  have hclose := expect_folds s .closeBracket (value s (depth + 1) ahead).rest
  rw [enclosed, enclosed]
  rw [← hinner.rest_eq] at hclose
  refine (hinner.behind hclose).map fun v => ?_
  rw [hinner.value_eq, Option.isSome_map]
  rfl
termination_by (ahead.length, 5)
decreasing_by exact Prod.Lex.right _ (by omega)

theorem chain_folds (depth : Nat) (left : Option Node) (height : Nat) (least : Int)
    (ahead : List Token) :
    Folds Node.folded? (chain s depth left height least ahead)
      (chain s.folded depth (Node.folded? left) height least (ahead.map Token.folded)) := by
  match ahead with
  | [] =>
    rw [List.map_nil, chain, chain]
    exact @Folds.pure _ _ [] _ _ rfl
  | t :: rest =>
    rw [List.map_cons, chain, chain, binds_folded]
    split
    · exact (link_folds depth t left height least rest).behindToken t t.folded
    · exact @Folds.pure _ _ (t :: rest) _ _ rfl
termination_by (ahead.length, 3)
decreasing_by exact Prod.Lex.left _ _ (by simp)

theorem link_folds (depth : Nat) (t : Token) (left : Option Node) (height : Nat) (least : Int)
    (ahead : List Token) :
    Folds Node.folded? (link s depth t left height least ahead)
      (link s.folded depth t.folded (Node.folded? left) height least
        (ahead.map Token.folded)) := by
  have hroom : s.folded.maxDepth = s.maxDepth := rfl
  rw [link, link, hroom]
  split
  · refine ((cutOff_folds s [] ahead).withReport ?_).map fun v => rfl
    rw [current_folded]
    rfl
  · have hfirst := operand_folds depth ahead
    have htighten := tighten_folds depth (operand s depth ahead).value
      (Keyword.precedence t.value) (operand s depth ahead).rest
    let right := (operand s depth ahead).behind (tighten s depth (operand s depth ahead).value
      (Keyword.precedence t.value) (operand s depth ahead).rest)
    have hchain := chain_folds depth (some (.binary t.value left right.value))
      (1 + max height (Node.height right.value)) least right.rest
    rw [← hfirst.value_eq, ← hfirst.rest_eq] at htighten
    have hright := hfirst.behind htighten
    rw [Token.value_folded, precedence_folded]
    refine hright.behind ?_
    rw [hright.value_eq, hright.rest_eq, Node.height_folded]
    exact hchain
termination_by (ahead.length, 5)
decreasing_by
  · exact Prod.Lex.right _ (by omega)
  · exact Prod.Lex.right' _ (Parsed.length_rest_le _) (by omega)
  · exact Prod.Lex.right' _ (Parsed.length_rest_le _) (by omega)

theorem tighten_folds (depth : Nat) (right : Option Node) (bound : Int) (ahead : List Token) :
    Folds Node.folded? (tighten s depth right bound ahead)
      (tighten s.folded depth (Node.folded? right) bound (ahead.map Token.folded)) := by
  match ahead with
  | [] =>
    rw [List.map_nil, tighten, tighten]
    exact @Folds.pure _ _ [] _ _ rfl
  | t :: rest =>
    rw [List.map_cons, tighten, tighten, isOperator_folded, Token.value_folded,
      precedence_folded]
    split
    · have hlink := link_folds depth t right (Node.height right) (Keyword.precedence t.value) rest
      have hmore := tighten_folds depth
        (link s depth t right (Node.height right) (Keyword.precedence t.value) rest).value bound
        (link s depth t right (Node.height right) (Keyword.precedence t.value) rest).rest
      rw [Node.height_folded]
      have htighter := hlink.behindToken t t.folded
      refine htighter.behind ?_
      rw [htighter.value_eq, htighter.rest_eq]
      exact hmore
    · exact @Folds.pure _ _ (t :: rest) _ _ rfl
termination_by (ahead.length, 3)
decreasing_by
  · exact Prod.Lex.left _ _ (by simp)
  · refine Prod.Lex.left _ _ ?_
    exact Nat.lt_succ_of_le (Parsed.length_rest_le _)

end

/-! ## Expressions read without a look at the token at hand -/

theorem bracketed_folds (depth : Nat) (ahead : List Token) :
    Folds Node.folded (bracketed s depth ahead)
      (bracketed s.folded depth (ahead.map Token.folded)) := by
  have hroom : s.folded.maxDepth = s.maxDepth := rfl
  rw [bracketed, bracketed, hroom, current_folded]
  split
  · exact (bracketGroup_folds s ahead).withReport rfl
  · have hfirst := expect_folds s .openBracket ahead
    refine hfirst.behind ?_
    rw [hfirst.rest_eq]
    exact enclosed_folds s depth _

theorem optionalBracket_folds (depth : Nat) (ahead : List Token) :
    Folds Node.folded? (optionalBracket s depth ahead)
      (optionalBracket s.folded depth (ahead.map Token.folded)) := by
  rw [optionalBracket, optionalBracket, current_folded, Token.kind_folded]
  split
  · exact (bracketed_folds s depth ahead).map fun v => rfl
  · exact .pure rfl

theorem functionCall_folds (depth : Nat) (ahead : List Token) :
    Folds Node.folded (functionCall s depth ahead)
      (functionCall s.folded depth (ahead.map Token.folded)) := by
  have hname := advance_folds s ahead
  have hargument := optionalBracket_folds s depth (advance s ahead).rest
  rw [← hname.rest_eq] at hargument
  refine (hname.behind hargument).map fun v => ?_
  rw [hname.value_eq]
  rfl

end Parse

end Gcode
