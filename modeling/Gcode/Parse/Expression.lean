import Gcode.Parse.Basic

/-!
# Expressions

Expressions are read by climbing precedences: an operator takes the operand behind it, after all
operators that bind tighter have been served. Signs, brackets and chains of operators count
against the limit on nesting; beyond it the text is kept as it is. Missing operands and brackets
are reported and left out of the tree, so that an expression can always be read.

## Main definitions

* `Parse.value` — an expression.
* `Parse.operand`, `Parse.primary` — an operand with its signs, and without them.
* `Parse.chain`, `Parse.link`, `Parse.tighten` — operators behind an operand.
* `Parse.enclosed` — what stands behind an opening bracket.
* `Parse.bracketed`, `Parse.functionCall` — brackets and calls, wherever they are asked for.
-/

namespace Gcode.Parse

/-- The signs at hand. -/
def signs : (ahead : List Token) → Parsed (List Text) ahead
  | [] => Parsed.pure [] []
  | t :: rest =>
    if isSign t then ((signs rest).map (t.value :: ·)).behindToken t
    else Parsed.pure [] (t :: rest)

/-- The operand with signs in front of it, the first of them outermost. -/
def withSigns (signs : List Text) (operand : Option Node) : Option Node :=
  signs.foldr (fun sign operand => some (.unary sign operand)) operand

variable (s : Setting)

mutual

/-- An expression. -/
def value (depth : Nat) (ahead : List Token) : Parsed (Option Node) ahead :=
  let left := operand depth ahead
  left.behind (chain depth left.value (Node.height left.value) 0 left.rest)
termination_by (ahead.length, 4)
decreasing_by
  · exact Prod.Lex.right _ (by omega)
  · exact Prod.Lex.right' _ (Parsed.length_rest_le _) (by omega)

/-- An operand with the signs in front of it. Signs beyond the limit on nesting are kept as text,
together with what follows them. -/
def operand (depth : Nat) (ahead : List Token) : Parsed (Option Node) ahead :=
  let signs := Parse.signs ahead
  let room := (s.maxDepth - depth).toNat
  if room < signs.value.length then
    let cut := cutOff s (signs.value.drop room).flatten signs.rest
    (signs.behind (cut.withReport ⟨.deepSigns s.maxDepth, (current s signs.rest).line⟩)).map
      fun node => withSigns (signs.value.take room) (some node)
  else
    (signs.behind (primary (depth + signs.value.length) signs.rest)).map (withSigns signs.value)
termination_by (ahead.length, 2)
decreasing_by exact Prod.Lex.right' _ (Parsed.length_rest_le _) (by omega)

/-- An operand without signs. If there is none, that is reported and nothing is read. -/
def primary (depth : Nat) (ahead : List Token) : Parsed (Option Node) ahead :=
  match ahead with
  | [] => Parsed.reporting none ⟨.missingOperand s.stop, s.stop.line⟩ []
  | t :: rest =>
    match t.kind with
    | .number => (Parsed.pure (some (.number t.value)) rest).behindToken t
    | .parameter => (Parsed.pure (some (.parameter t.value)) rest).behindToken t
    | .openBracket => (opened depth t rest).map some
    | .function =>
      match rest with
      | [] => (Parsed.pure (some (.call t.value none)) []).behindToken t
      | u :: rest =>
        if u.kind = .openBracket then
          ((opened depth u rest).map fun node => some (.call t.value (some node))).behindToken t
        else (Parsed.pure (some (.call t.value none)) (u :: rest)).behindToken t
    | .word => (Parsed.pure (some (.word t.value none)) rest).behindToken t
    | _ => Parsed.reporting none ⟨.missingOperand t, t.line⟩ (t :: rest)
termination_by (ahead.length, 1)
decreasing_by
  · exact Prod.Lex.right _ (by omega)
  · exact Prod.Lex.left _ _ (by simp)

/-- The expression in brackets that begins with the opening bracket `t`. A bracket beyond the
limit on nesting is kept as text. -/
def opened (depth : Nat) (t : Token) (rest : List Token) : Parsed Node (t :: rest) :=
  if s.maxDepth ≤ depth then
    (bracketGroup s (t :: rest)).withReport ⟨.deepBracket s.maxDepth, t.line⟩
  else (enclosed depth rest).behindToken t
termination_by (rest.length + 1, 0)
decreasing_by exact Prod.Lex.left _ _ (by simp)

/-- What stands behind an opening bracket: an expression and the closing bracket. -/
def enclosed (depth : Nat) (ahead : List Token) : Parsed Node ahead :=
  let inner := value (depth + 1) ahead
  (inner.behind (expect s .closeBracket inner.rest)).map
    fun close => .bracketed inner.value close.isSome
termination_by (ahead.length, 5)
decreasing_by exact Prod.Lex.right _ (by omega)

/-- The operators behind an operand that bind at least as tight as `least`, with their right
operands. `height` is the height of the operand. -/
def chain (depth : Nat) (left : Option Node) (height : Nat) (least : Int) (ahead : List Token) :
    Parsed (Option Node) ahead :=
  match ahead with
  | [] => Parsed.pure left []
  | t :: rest =>
    if binds t least then (link depth t left height least rest).behindToken t
    else Parsed.pure left (t :: rest)
termination_by (ahead.length, 3)
decreasing_by exact Prod.Lex.left _ _ (by simp)

/-- What stands behind the operator `t`: its right operand, and the operators behind that which
bind at least as tight as `least`. An operator beyond the limit on nesting takes the rest of the
expression as text. -/
def link (depth : Nat) (t : Token) (left : Option Node) (height : Nat) (least : Int)
    (ahead : List Token) : Parsed (Option Node) ahead :=
  if s.maxDepth ≤ depth + height then
    ((cutOff s [] ahead).withReport ⟨.deepChain s.maxDepth, (current s ahead).line⟩).map
      fun node => some (.binary t.value left (some node))
  else
    let first := operand depth ahead
    let right := first.behind (tighten depth first.value (Keyword.precedence t.value) first.rest)
    right.behind (chain depth (some (.binary t.value left right.value))
      (1 + max height (Node.height right.value)) least right.rest)
termination_by (ahead.length, 5)
decreasing_by
  · exact Prod.Lex.right _ (by omega)
  · exact Prod.Lex.right' _ (Parsed.length_rest_le _) (by omega)
  · exact Prod.Lex.right' _ (Parsed.length_rest_le _) (by omega)

/-- The operand with all the operators behind it that bind tighter than `bound`. -/
def tighten (depth : Nat) (right : Option Node) (bound : Int) (ahead : List Token) :
    Parsed (Option Node) ahead :=
  match ahead with
  | [] => Parsed.pure right []
  | t :: rest =>
    if isOperator t && bound < (Keyword.precedence t.value : Int) then
      let tighter :=
        (link depth t right (Node.height right) (Keyword.precedence t.value) rest).behindToken t
      tighter.behind (tighten depth tighter.value bound tighter.rest)
    else Parsed.pure right (t :: rest)
termination_by (ahead.length, 3)
decreasing_by
  · exact Prod.Lex.left _ _ (by simp)
  · refine Prod.Lex.left _ _ ?_
    simp only [Parsed.behindToken]
    exact Nat.lt_succ_of_le (Parsed.length_rest_le _)

end

/-! ## Expressions read without a look at the token at hand -/

/-- An expression in brackets. If the opening one is missing, that is reported. -/
def bracketed (depth : Nat) (ahead : List Token) : Parsed Node ahead :=
  if s.maxDepth ≤ depth then
    (bracketGroup s ahead).withReport ⟨.deepBracket s.maxDepth, (current s ahead).line⟩
  else
    let first := expect s .openBracket ahead
    first.behind (enclosed s depth first.rest)

/-- An expression in brackets if one begins here. -/
def optionalBracket (depth : Nat) (ahead : List Token) : Parsed (Option Node) ahead :=
  if (current s ahead).kind = .openBracket then (bracketed s depth ahead).map some
  else Parsed.pure none ahead

/-- A function name and its argument. -/
def functionCall (depth : Nat) (ahead : List Token) : Parsed Node ahead :=
  let name := advance s ahead
  (name.behind (optionalBracket s depth name.rest)).map (.call name.value.value)

/-- What begins with an opening bracket is an expression in brackets. -/
theorem opened_eq_bracketed (depth : Nat) {t : Token} (ht : t.kind = .openBracket)
    (rest : List Token) : opened s depth t rest = bracketed s depth (t :: rest) := by
  have first : expect s .openBracket (t :: rest) = (advance s (t :: rest)).map some := by
    simp [expect, current, ht]
  rw [opened, bracketed]
  generalize expect s .openBracket (t :: rest) = e at first
  subst first
  rfl

end Gcode.Parse
