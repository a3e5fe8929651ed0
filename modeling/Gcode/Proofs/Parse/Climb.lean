import Gcode.Proofs.Parse.Precedence
import Gcode.Proofs.Parse.Room

/-!
# Operands and operators in order

An expression is written as operands with operators between them. All of them are read, as long as
no limit on nesting is reached, and the tree that is made of them has the same operands and
operators in the same order. As it is ranked too, there is no other such tree.

## Main definitions

* `Reading.Operand`, `Reading.Bracket`, `Reading.Alternation` — how expressions are written.
* `Parse.Links` — operators that are at hand, each with the operand that is read behind it.
* `Parse.Extends` — a tree to which the operators at hand were added.

## Main statements

* `Parse.value_extends` — the tree is made of the operands and operators that are read, in order.
* `operators_ranked` — the trees of a program are ranked, and an expression is the one tree that
  is ranked and has its operands and operators.
-/

namespace Gcode

namespace Reading

open Node (Every Ranked firstOperand? links?)

mutual

/-- The operand is written in the first tokens of `ahead`, behind which `rest` is left. -/
inductive Operand : Node → List Token → List Token → Prop
  | number {t : Token} (rest : List Token) : t.kind = .number →
    Operand (.number t.value) (t :: rest) rest
  | parameter {t : Token} (rest : List Token) : t.kind = .parameter →
    Operand (.parameter t.value) (t :: rest) rest
  | word {t : Token} (rest : List Token) : t.kind = .word →
    Operand (.word t.value none) (t :: rest) rest
  | signed {t : Token} {n : Node} {ahead rest : List Token} : Parse.isSign t = true →
    Operand n ahead rest → Operand (.unary t.value (some n)) (t :: ahead) rest
  /-- A function name without an argument. -/
  | name {t : Token} {rest : List Token} : t.kind = .function →
    (∀ u ∈ rest.head?, u.kind ≠ .openBracket) → Operand (.call t.value none) (t :: rest) rest
  | call {t : Token} {n : Node} {ahead rest : List Token} : t.kind = .function →
    Bracket n ahead rest → Operand (.call t.value (some n)) (t :: ahead) rest
  | bracket {n : Node} {ahead rest : List Token} : Bracket n ahead rest → Operand n ahead rest

/-- Brackets around operands and operators, of which the ranked tree is made. -/
inductive Bracket : Node → List Token → List Token → Prop
  | enclosed {t u : Token} {tree : Option Node} {ahead rest : List Token} :
    t.kind = .openBracket → u.kind = .closeBracket → Every Ranked tree →
    Alternation (firstOperand? tree) (links? tree) ahead (u :: rest) →
    Bracket (.bracketed tree true) (t :: ahead) rest

/-- Operands with operators between them: the first operand, and each operator with the operand
behind it. -/
inductive Alternation :
    Option Node → List (Text × Option Node) → List Token → List Token → Prop
  | single {n : Node} {ahead rest : List Token} : Operand n ahead rest →
    Alternation (some n) [] ahead rest
  | link {t : Token} {n : Node} {next : Option Node} {more : List (Text × Option Node)}
    {ahead behind rest : List Token} : Operand n ahead (t :: behind) →
    Parse.isOperator t = true → Alternation next more behind rest →
    Alternation (some n) ((t.value, next) :: more) ahead rest

end

theorem Bracket.exists_cons {n : Node} {ahead rest : List Token} (h : Bracket n ahead rest) :
    ∃ t behind, ahead = t :: behind ∧ t.kind = .openBracket := by
  cases h with
  | enclosed ht => exact ⟨_, _, rfl, ht⟩

end Reading

namespace Parse

open Node (Every NoOperator Ranked firstOperand? links?)
open Reading (Alternation Bracket Operand)

variable (s : Setting)

/-! ## Operators added to a tree -/

/-- Operators that are at hand, each with the operand that is read behind it. -/
inductive Links (depth : Nat) : List (Text × Option Node) → List Token → List Token → Prop
  | nil (ahead : List Token) : Links depth [] ahead ahead
  | cons {t : Token} {more : List (Text × Option Node)} {ahead rest : List Token} :
    isOperator t = true → ¬Guarded (operand s depth ahead).reports →
    Links depth more (operand s depth ahead).rest rest →
    Links depth ((t.value, (operand s depth ahead).value) :: more) (t :: ahead) rest

/-- The tree is made of `left` and operators at hand, behind which `rest` is left. -/
def Extends (depth : Nat) (left : Option Node) (ahead : List Token) (tree : Option Node)
    (rest : List Token) : Prop :=
  ∃ more, Links s depth more ahead rest ∧ firstOperand? tree = firstOperand? left ∧
    links? tree = links? left ++ more

variable {s}

theorem Links.append {depth : Nat} {more others : List (Text × Option Node)}
    {ahead behind rest : List Token} (h : Links s depth more ahead behind)
    (k : Links s depth others behind rest) : Links s depth (more ++ others) ahead rest := by
  induction h with
  | nil => exact k
  | cons ho hg _ ih => exact .cons ho hg (ih k)

theorem Extends.refl (depth : Nat) (left : Option Node) (ahead : List Token) :
    Extends s depth left ahead left ahead := ⟨[], .nil ahead, rfl, (List.append_nil _).symm⟩

theorem Extends.trans {depth : Nat} {left middle tree : Option Node}
    {ahead behind rest : List Token} (h : Extends s depth left ahead middle behind)
    (k : Extends s depth middle behind tree rest) : Extends s depth left ahead tree rest := by
  obtain ⟨more, hmore, hfirst, hlinks⟩ := h
  obtain ⟨others, hothers, hfirst', hlinks'⟩ := k
  refine ⟨more ++ others, hmore.append hothers, hfirst'.trans hfirst, ?_⟩
  rw [hlinks', hlinks, List.append_assoc]

/-- An operator is added to a tree with the operand behind it and what that one was extended to. -/
theorem Extends.join {depth : Nat} {t : Token} (ho : isOperator t = true) (left : Option Node)
    {ahead : List Token} (hg : ¬Guarded (operand s depth ahead).reports) {right : Option Node}
    {rest : List Token}
    (h : Extends s depth (operand s depth ahead).value (operand s depth ahead).rest right rest) :
    Extends s depth left (t :: ahead) (some (.binary t.value left right)) rest := by
  obtain ⟨more, hmore, hfirst, hlinks⟩ := h
  obtain ⟨hno, -⟩ := operand_ranked s depth ahead
  rw [hno.firstOperand?_eq] at hfirst
  rw [hno.links?_eq, List.nil_append] at hlinks
  refine ⟨_, .cons ho hg hmore, rfl, ?_⟩
  rw [Node.links?_binary, hfirst, hlinks]

variable (s)

mutual

/-- The operators at hand are added to an operand, as long as they bind at least as tight as
`least`. -/
theorem chain_extends (depth : Nat) (left : Option Node) (height : Nat) (least : Int)
    (ahead : List Token) (hg : ¬Guarded (chain s depth left height least ahead).reports) :
    Extends s depth left ahead (chain s depth left height least ahead).value
      (chain s depth left height least ahead).rest := by
  match ahead with
  | [] =>
    rw [chain]
    exact .refl depth left []
  | t :: rest =>
    rw [chain] at hg ⊢
    by_cases hb : binds t least = true
    · rw [if_pos hb] at hg ⊢
      rw [binds, Bool.and_eq_true] at hb
      exact link_extends depth hb.1 left height least rest hg
    · rw [if_neg hb]
      exact .refl depth left (t :: rest)
termination_by (ahead.length, 3)
decreasing_by exact Prod.Lex.left _ _ (by simp)

theorem link_extends (depth : Nat) {t : Token} (ho : isOperator t = true) (left : Option Node)
    (height : Nat) (least : Int) (ahead : List Token)
    (hg : ¬Guarded (link s depth t left height least ahead).reports) :
    Extends s depth left (t :: ahead) (link s depth t left height least ahead).value
      (link s depth t left height least ahead).rest := by
  rw [link] at hg ⊢
  by_cases hd : s.maxDepth ≤ depth + height
  · rw [if_pos hd] at hg
    exact absurd ⟨_, List.mem_cons_self, rfl⟩ hg
  · rw [if_neg hd] at hg ⊢
    dsimp only [Parsed.behind] at hg ⊢
    simp only [guarded_append, not_or] at hg
    have hright := tighten_extends depth (operand s depth ahead).value
      (Keyword.precedence t.value) (operand s depth ahead).rest hg.1.2
    exact (Extends.join ho left hg.1.1 hright).trans (chain_extends depth _ _ least _ hg.2)
termination_by (ahead.length, 5)
decreasing_by
  · exact Prod.Lex.right' _ (Parsed.length_rest_le _) (by omega)
  · refine Prod.Lex.right' _ ?_ (by omega)
    exact Nat.le_trans (Parsed.length_rest_le _) (Parsed.length_rest_le _)

theorem tighten_extends (depth : Nat) (right : Option Node) (bound : Int) (ahead : List Token)
    (hg : ¬Guarded (tighten s depth right bound ahead).reports) :
    Extends s depth right ahead (tighten s depth right bound ahead).value
      (tighten s depth right bound ahead).rest := by
  match ahead with
  | [] =>
    rw [tighten]
    exact .refl depth right []
  | t :: rest =>
    rw [tighten] at hg ⊢
    by_cases hb : (isOperator t && bound < (Keyword.precedence t.value : Int)) = true
    · rw [if_pos hb] at hg ⊢
      dsimp only [Parsed.behind, Parsed.behindToken] at hg ⊢
      rw [guarded_append, not_or] at hg
      rw [Bool.and_eq_true] at hb
      have htighter := link_extends depth hb.1 right (Node.height right)
        (Keyword.precedence t.value) rest hg.1
      exact htighter.trans (tighten_extends depth _ bound _ hg.2)
    · rw [if_neg hb]
      exact .refl depth right (t :: rest)
termination_by (ahead.length, 3)
decreasing_by
  · exact Prod.Lex.left _ _ (by simp)
  · refine Prod.Lex.left _ _ ?_
    exact Nat.lt_succ_of_le (Parsed.length_rest_le _)

end

theorem guarded_value (depth : Nat) (ahead : List Token) :
    Guarded (value s depth ahead).reports ↔ Guarded (operand s depth ahead).reports ∨
      Guarded (chain s depth (operand s depth ahead).value
        (Node.height (operand s depth ahead).value) 0 (operand s depth ahead).rest).reports := by
  rw [value]
  exact guarded_append _ _

/-- An expression is made of its first operand and all the operators behind it, whether their
operands are there or missing. -/
theorem value_extends (depth : Nat) (ahead : List Token)
    (hg : ¬Guarded (value s depth ahead).reports) :
    Extends s depth (operand s depth ahead).value (operand s depth ahead).rest
      (value s depth ahead).value (value s depth ahead).rest := by
  rw [guarded_value, not_or] at hg
  rw [value]
  exact chain_extends s depth _ _ 0 _ hg.2

/-! ## Expressions as they are written -/

theorem isSign_eq_false_of_kind {t : Token} (h : t.kind ≠ .operator) : isSign t = false := by
  simp [isSign, h]

/-- Without a sign at hand, an operand is one without signs. -/
theorem operand_eq_primary (depth : Nat) {t : Token} (ht : isSign t = false) (rest : List Token) :
    operand s depth (t :: rest) = primary s depth (t :: rest) := by
  have hsigns : signs (t :: rest) = Parsed.pure [] (t :: rest) := by
    rw [signs, if_neg (by simp [ht])]
  rw [operand, hsigns]
  exact if_neg (Nat.not_lt_zero _)

/-- Within the limit on nesting, the sign at hand stands in front of the operand behind it, which is
one level deeper. -/
theorem operand_within {depth : Nat} (hd : (depth : Int) < s.maxDepth) {t : Token}
    (ht : isSign t = true) (ahead : List Token) :
    operand s depth (t :: ahead) = ((operand s (depth + 1) ahead).map fun n =>
      some (.unary t.value n)).behindToken t := by
  have hsigns : signs (t :: ahead) =
      ((signs ahead).map (t.value :: ·)).behindToken t := by rw [signs, if_pos ht]
  have hlength : (signs (t :: ahead)).value.length = (signs ahead).value.length + 1 := by
    rw [hsigns]
    rfl
  have hroom : (s.maxDepth - depth).toNat = (s.maxDepth - (depth + 1 : Nat)).toNat + 1 := by omega
  have hdepth : depth + ((signs ahead).value.length + 1) =
      depth + 1 + (signs ahead).value.length := by omega
  rw [operand, operand]
  dsimp only
  rw [hlength, hroom, hdepth]
  by_cases hlt : (s.maxDepth - (depth + 1 : Nat)).toNat < (signs ahead).value.length
  · rw [if_pos (Nat.succ_lt_succ hlt), if_pos hlt, hsigns]
    rfl
  · rw [if_neg fun h => hlt (Nat.lt_of_succ_lt_succ h), if_neg hlt, hsigns]
    rfl

/-- The sign at hand stands in front of the operand behind it, if no limit is reached. -/
theorem operand_signed (depth : Nat) {t : Token} (ht : isSign t = true) (ahead : List Token)
    (hg : ¬Guarded (operand s depth (t :: ahead)).reports) :
    operand s depth (t :: ahead) = ((operand s (depth + 1) ahead).map fun n =>
      some (.unary t.value n)).behindToken t := by
  refine operand_within s (Int.not_le.mp fun hd => hg ?_) ht ahead
  have hroom : (s.maxDepth - depth).toNat < (signs (t :: ahead)).value.length := by
    rw [signs, if_pos ht]
    dsimp only [Parsed.behindToken, Parsed.map]
    rw [List.length_cons]
    omega
  rw [operand]
  simp only [if_pos hroom]
  dsimp only [Parsed.behind, Parsed.withReport, Parsed.map]
  rw [guarded_append, guarded_cons]
  exact .inr (.inl rfl)

theorem primary_bracket (depth : Nat) {t : Token} (ht : t.kind = .openBracket)
    (rest : List Token) : primary s depth (t :: rest) = (opened s depth t rest).map some := by
  rw [primary.eq_def]
  simp only [ht]

theorem primary_call (depth : Nat) {t u : Token} (ht : t.kind = .function)
    (hu : u.kind = .openBracket) (rest : List Token) :
    primary s depth (t :: u :: rest) =
      ((opened s depth u rest).map fun n => some (.call t.value (some n))).behindToken t := by
  rw [primary.eq_def]
  simp only [ht]
  rw [if_pos hu]

theorem operand_bracket (depth : Nat) {t : Token} (ht : t.kind = .openBracket)
    (rest : List Token) : operand s depth (t :: rest) = (opened s depth t rest).map some := by
  rw [operand_eq_primary s depth (isSign_eq_false_of_kind (by simp [ht])),
    primary_bracket s depth ht]

theorem operand_call (depth : Nat) {t u : Token} (ht : t.kind = .function)
    (hu : u.kind = .openBracket) (rest : List Token) :
    operand s depth (t :: u :: rest) =
      ((opened s depth u rest).map fun n => some (.call t.value (some n))).behindToken t := by
  rw [operand_eq_primary s depth (isSign_eq_false_of_kind (by simp [ht])),
    primary_call s depth ht hu]

mutual

/-- An operand is read as it is written. -/
theorem operand_takes (depth : Nat) {n : Node} {ahead rest : List Token}
    (h : Operand n ahead rest) (hg : ¬Guarded (operand s depth ahead).reports) :
    (operand s depth ahead).value = some n ∧ (operand s depth ahead).rest = rest := by
  cases h with
  | number _ ht | parameter _ ht | word _ ht =>
    rw [operand_eq_primary s depth (isSign_eq_false_of_kind (by simp [ht])), primary.eq_def]
    simp only [ht]
    exact ⟨rfl, rfl⟩
  | signed ht hn =>
    have hsigned := operand_signed s depth ht _ hg
    rw [hsigned] at hg ⊢
    obtain ⟨hvalue, hrest⟩ := operand_takes (depth + 1) hn hg
    exact ⟨congrArg (fun n => some (Node.unary _ n)) hvalue, hrest⟩
  | name ht hne =>
    rw [operand_eq_primary s depth (isSign_eq_false_of_kind (by simp [ht])), primary.eq_def]
    simp only [ht]
    cases rest with
    | nil => exact ⟨rfl, rfl⟩
    | cons u rest =>
      dsimp only
      rw [if_neg (hne u rfl)]
      exact ⟨rfl, rfl⟩
  | call ht hb =>
    obtain ⟨u, _, rfl, hu⟩ := hb.exists_cons
    rw [operand_call s depth ht hu] at hg ⊢
    obtain ⟨hvalue, hrest⟩ := opened_takes depth hb hg
    exact ⟨congrArg (fun n => some (Node.call _ (some n))) hvalue, hrest⟩
  | bracket hb =>
    obtain ⟨u, _, rfl, hu⟩ := hb.exists_cons
    rw [operand_bracket s depth hu] at hg ⊢
    obtain ⟨hvalue, hrest⟩ := opened_takes depth hb hg
    exact ⟨congrArg some hvalue, hrest⟩
termination_by (ahead.length, 1)
decreasing_by
  all_goals subst_vars
  · exact Prod.Lex.left _ _ (by simp)
  · exact Prod.Lex.left _ _ (by simp)
  · exact Prod.Lex.right _ (by omega)

/-- Brackets are read as they are written. -/
theorem opened_takes (depth : Nat) {t : Token} {n : Node} {ahead rest : List Token}
    (h : Bracket n (t :: ahead) rest) (hg : ¬Guarded (opened s depth t ahead).reports) :
    (opened s depth t ahead).value = n ∧ (opened s depth t ahead).rest = rest := by
  rw [opened] at hg ⊢
  by_cases hd : s.maxDepth ≤ depth
  · rw [if_pos hd] at hg
    exact absurd ⟨_, List.mem_cons_self, rfl⟩ hg
  · rw [if_neg hd, enclosed] at hg ⊢
    cases h with
    | @enclosed _ u tree _ _ ht hu hranked htree =>
      dsimp only [Parsed.behind, Parsed.behindToken, Parsed.map] at hg ⊢
      rw [guarded_append, not_or] at hg
      have hclose : ∀ ahead', ahead' = u :: rest →
          (expect s .closeBracket ahead').value.isSome = true ∧
            (expect s .closeBracket ahead').rest = rest := by
        rintro _ rfl
        rw [expect_cons_of_eq s hu]
        exact ⟨rfl, rfl⟩
      obtain ⟨hrest, hfirst, hlinks⟩ := value_takes (depth + 1) htree
        (fun v hv => by cases hv; simp [isOperator, hu]) hg.1
      have hvalue := Node.eq_of_links (value_climbed s (depth + 1) ahead).ranked hranked hfirst
        hlinks
      obtain ⟨hsome, hend⟩ := hclose _ hrest
      exact ⟨by rw [hvalue, hsome], hend⟩
termination_by (ahead.length + 1, 0)
decreasing_by exact Prod.Lex.left _ _ (by simp)

/-- All operands and operators are read as they are written, up to where they end. -/
theorem alternation_takes (depth : Nat) {first : Option Node} {more : List (Text × Option Node)}
    {ahead rest : List Token} (h : Alternation first more ahead rest)
    (hend : NoOperatorAhead rest) (hg : ¬Guarded (operand s depth ahead).reports)
    {others : List (Text × Option Node)} {rest' : List Token}
    (hlinks : Links s depth others (operand s depth ahead).rest rest')
    (hend' : NoOperatorAhead rest') :
    (operand s depth ahead).value = first ∧ others = more ∧ rest' = rest := by
  cases h with
  | single hn =>
    obtain ⟨hvalue, hrest⟩ := operand_takes depth hn hg
    rw [hrest] at hlinks
    cases hlinks with
    | nil => exact ⟨hvalue, rfl, rfl⟩
    | cons ho _ _ =>
      rw [hend _ rfl] at ho
      cases ho
  | @link t _ _ _ _ behind _ hn ho hnext =>
    obtain ⟨hvalue, hrest⟩ := operand_takes depth hn hg
    have hlt : behind.length < ahead.length := by
      have hle := (operand s depth ahead).length_rest_le
      rwa [hrest] at hle
    rw [hrest] at hlinks
    cases hlinks with
    | nil =>
      rw [hend' _ rfl] at ho
      cases ho
    | cons _ hg' hmore =>
      obtain ⟨rfl, rfl, rfl⟩ := alternation_takes depth hnext hend hg' hmore hend'
      exact ⟨hvalue, rfl, rfl⟩
termination_by (ahead.length, 2)
decreasing_by
  · exact Prod.Lex.right _ (by omega)
  · exact Prod.Lex.right _ (by omega)
  · exact Prod.Lex.left _ _ hlt

theorem value_takes (depth : Nat) {first : Option Node} {more : List (Text × Option Node)}
    {ahead rest : List Token} (h : Alternation first more ahead rest)
    (hend : NoOperatorAhead rest) (hg : ¬Guarded (value s depth ahead).reports) :
    (value s depth ahead).rest = rest ∧ firstOperand? (value s depth ahead).value = first ∧
      links? (value s depth ahead).value = more := by
  have hend' := (value_climbed s depth ahead).looser.noOperatorAhead
  have hno := (operand_ranked s depth ahead).noOperator
  have hg' : ¬Guarded (operand s depth ahead).reports := fun hfirst =>
    hg ((guarded_value s depth ahead).mpr (.inl hfirst))
  obtain ⟨others, hothers, hfirst, hlinks⟩ := value_extends s depth ahead hg
  obtain ⟨hvalue, rfl, hrest⟩ := alternation_takes depth h hend hg' hothers hend'
  refine ⟨hrest, ?_, ?_⟩
  · rw [hfirst, hno.firstOperand?_eq, hvalue]
  · rw [hlinks, hno.links?_eq, List.nil_append]
termination_by (ahead.length, 3)
decreasing_by exact Prod.Lex.right _ (by omega)

end

end Parse

open Node (Every Inside Ranked firstOperand? links?) in
/-- Every node of a program that was parsed from any tokens is ranked. Operands with operators
between them are read to the last, unless a limit on nesting is reached, and make the one tree
that is ranked and has these operands and operators in order. -/
theorem operators_ranked :
    (∀ (tokens : List Token) (limits : Limits), ∃ program reports,
      parse tokens limits = .ok (program, reports) ∧ ∀ n, Inside n program.node → Ranked n) ∧
    ∀ (s : Setting) (depth : Nat) (first : Option Node) (more : List (Text × Option Node))
      (ahead rest : List Token), Reading.Alternation first more ahead rest →
      Parse.NoOperatorAhead rest → ¬Guarded (Parse.value s depth ahead).reports →
      ∃ tree, (Parse.value s depth ahead).value = some tree ∧
        (Parse.value s depth ahead).rest = rest ∧
        ∀ other, Every Ranked other ∧ firstOperand? other = first ∧ links? other = more ↔
          other = some tree := by
  constructor
  · intro tokens limits
    have hblock : ∀ k h b c, Ranked (.block k h b c) := by
      intro k h b c
      exact Node.NoOperator.ranked (by simp [Node.NoOperator])
    have hplain : ∀ n, Parse.Plain n → Ranked n := by
      rintro n ⟨hn, -⟩ operator left right rfl
      cases hn
    obtain ⟨program, reports, hparse, hevery⟩ := exists_parse_every Parse.expressions_ranked
      hplain (fun _ k h b c _ => hblock k h b c) tokens limits
    exact ⟨program, reports, hparse, hevery _ rfl⟩
  · intro s depth first more ahead rest h hend hg
    obtain ⟨hrest, hfirst, hlinks⟩ := Parse.value_takes s depth h hend hg
    have hranked := (Parse.value_climbed s depth ahead).ranked
    cases htree : (Parse.value s depth ahead).value with
    | none =>
      rw [htree] at hfirst
      cases h <;> cases hfirst
    | some tree =>
      rw [htree] at hfirst hlinks hranked
      refine ⟨tree, rfl, hrest, fun other => ⟨?_, ?_⟩⟩
      · rintro ⟨hother, hfirst', hlinks'⟩
        exact Node.eq_of_links hother hranked (hfirst'.trans hfirst.symm)
          (hlinks'.trans hlinks.symm)
      · rintro rfl
        exact ⟨hranked, hfirst, hlinks⟩

/-- In a sum of a number and a product, the product is served first. -/
theorem operators_ranked_sum :
    (Parse.value ⟨5, [], 1, 6, 64⟩ 0 [⟨.number, "1", 1⟩, ⟨.operator, "+", 1⟩, ⟨.number, "2", 1⟩,
      ⟨.operator, "*", 1⟩, ⟨.number, "3", 1⟩]).value =
    some (.binary "+" (some (.number "1"))
      (some (.binary "*" (some (.number "2")) (some (.number "3"))))) := by
  have hno : ∀ text, Node.NoOperator (some (.number text)) := by simp [Node.NoOperator]
  have hleaf : ∀ text, Node.Every Node.Ranked (some (.number text)) := fun text =>
    (Parse.RankedOperand.leaf (hno text) rfl).ranked
  have hproduct : Node.Every Node.Ranked
      (some (.binary "*" (some (.number "2")) (some (.number "3")))) :=
    Node.every_ranked_binary.mpr
      ⟨⟨(hno _).bindsAtLeast _, (hno _).bindsAtLeast _⟩, hleaf _, hleaf _⟩
  have hwritten : Reading.Alternation (some (.number "1"))
      [("+", some (.number "2")), ("*", some (.number "3"))]
      [⟨.number, "1", 1⟩, ⟨.operator, "+", 1⟩, ⟨.number, "2", 1⟩, ⟨.operator, "*", 1⟩,
        ⟨.number, "3", 1⟩] [] := by
    refine .link (t := ⟨.operator, "+", 1⟩) (.number (t := ⟨.number, "1", 1⟩) _ rfl) rfl ?_
    refine .link (t := ⟨.operator, "*", 1⟩) (.number (t := ⟨.number, "2", 1⟩) _ rfl) rfl ?_
    exact .single (.number (t := ⟨.number, "3", 1⟩) [] rfl)
  obtain ⟨tree, hvalue, -, hunique⟩ := operators_ranked.2 ⟨5, [], 1, 6, 64⟩ 0 _ _ _ [] hwritten
    (by simp [Parse.NoOperatorAhead]) (Parse.value_unguarded _ 0 _ (by decide))
  refine hvalue.trans ((hunique _).mp ⟨?_, rfl, rfl⟩).symm
  refine Node.every_ranked_binary.mpr ⟨⟨(hno _).bindsAtLeast _, ?_⟩, hleaf _, hproduct⟩
  rintro _ _ _ ⟨⟩
  decide

end Gcode
