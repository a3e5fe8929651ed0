import Gcode.Diagnostic.Basic
import Gcode.Proofs.Node.Inside
import Mathlib.Algebra.GroupWithZero.Nat

/-!
# What is wrong with a tree

A tree shows where the program that it was read from is at fault: an operand is missing, a bracket
or a block is not closed, or text stands where no statement can hold it.

## Main definitions

* `Node.nodes` — all nodes of a tree.
* `Node.required` — the places in a node that an operand has to fill.
* `Node.missingOperands`, `Node.isUnclosedBracket`, `Node.isUnclosedBlock`, `Node.isStray` — what is
  wrong with a node.
* `Node.damage` — how much of it is a problem of a given kind.

## Main statements

* `Node.mem_nodes` — the nodes of a tree are those that are inside it.
* `Node.damage_sound` — a node that is not at fault itself lacks operands at most.
-/

namespace Gcode.Node

mutual

/-- All nodes of a tree, the root first. -/
def nodes : Node → List Node
  | .number text => [.number text]
  | .parameter text => [.parameter text]
  | .unary operator operand => .unary operator operand :: nodes? operand
  | .binary operator left right => .binary operator left right :: (nodes? left ++ nodes? right)
  | .bracketed inner closed => .bracketed inner closed :: nodes? inner
  | .word letter value => .word letter value :: nodes? value
  | .call name argument => .call name argument :: nodes? argument
  | .unknown text line => [.unknown text line]
  | .comment text => [.comment text]
  | .endOfLine text => [.endOfLine text]
  | .header oWord label keyword condition =>
    .header oWord label keyword condition :: (nodes? label ++ nodes? condition)
  | .commandLine commands => .commandLine commands :: nodesOf commands
  | .oStatement head line => .oStatement head line :: (nodes? head ++ nodes? line)
  | .assignment target value => .assignment target value :: nodes? value
  | .block keyword head body closing =>
    .block keyword head body closing :: (nodes? head ++ (nodes? closing ++ nodesOf body))
  | .program statements => .program statements :: nodesOf statements

/-- All nodes of a tree that may be missing. -/
def nodes? : Option Node → List Node
  | none => []
  | some node => nodes node

/-- All nodes of trees that stand one behind the other. -/
def nodesOf : List (Option Node) → List Node
  | [] => []
  | node :: rest => nodes? node ++ nodesOf rest

end

/-- The nodes of a tree are the root and those of its children. -/
theorem nodes_eq (n : Node) : nodes n = n :: nodesOf n.children := by
  cases n <;> simp [nodes, nodesOf, children, operands]

theorem mem_nodesOf {m : Node} {ns : List (Option Node)} :
    m ∈ nodesOf ns ↔ ∃ c, some c ∈ ns ∧ m ∈ nodes c := by
  induction ns with
  | nil => simp [nodesOf]
  | cons n ns ih => cases n <;> simp [nodesOf, nodes?, ih, or_and_right, exists_or]

theorem Inside.mem_nodes {m n : Node} (h : Inside m n) : m ∈ nodes n := by
  induction h with
  | refl => simp [nodes_eq]
  | child hc _ ih =>
    rw [nodes_eq]
    exact List.mem_cons_of_mem _ (mem_nodesOf.mpr ⟨_, hc, ih⟩)

theorem sizeOf_lt_of_mem_children {n c : Node} (h : some c ∈ n.children) :
    sizeOf c < sizeOf n := by
  have hlist : ∀ cs : List (Option Node), some c ∈ cs → sizeOf c < sizeOf cs := fun cs hc =>
    Nat.lt_of_le_of_lt (by simp) (List.sizeOf_lt_of_mem hc)
  cases n with
  | unary _ a | bracketed a _ | word _ a | call _ a | assignment _ a =>
    obtain rfl := List.mem_singleton.mp h
    simp
    omega
  | binary _ a b | header _ a _ b | oStatement a b =>
    simp only [children, operands, List.mem_cons, List.not_mem_nil, or_false] at h
    rcases h with rfl | rfl
    all_goals
      simp
      omega
  | commandLine nodes | program nodes =>
    have := hlist nodes h
    simp
    omega
  | block keyword head body closing =>
    rcases List.mem_cons.mp h with rfl | h
    · simp
      omega
    rcases List.mem_cons.mp h with rfl | h
    · simp
      omega
    · have := hlist body h
      simp
      omega
  | number | parameter | unknown | comment | endOfLine => cases h

/-- The nodes of a tree are those that are inside it. -/
theorem mem_nodes {m n : Node} : m ∈ nodes n ↔ Inside m n := by
  refine ⟨fun h => ?_, Inside.mem_nodes⟩
  rw [nodes_eq, List.mem_cons, mem_nodesOf] at h
  rcases h with rfl | ⟨c, hc, h⟩
  · exact .refl
  · exact .child hc (mem_nodes.mp h)
termination_by sizeOf n
decreasing_by exact sizeOf_lt_of_mem_children hc

/-! ## Damage -/

/-- The places in a node that an operand has to fill. A value, an argument and a condition need not
be there. -/
def required : Node → List (Option Node)
  | .unary _ operand => [operand]
  | .binary _ left right => [left, right]
  | .bracketed inner _ => [inner]
  | .header _ label _ _ => [label]
  | .assignment _ value => [value]
  | _ => []

/-- How many operands a node lacks. -/
def missingOperands (n : Node) : Nat := n.required.countP Option.isNone

/-- Whether the node is an expression in brackets that are not closed. -/
def isUnclosedBracket : Node → Bool
  | .bracketed _ closed => !closed
  | _ => false

/-- Whether the node is a block that no line closes. -/
def isUnclosedBlock : Node → Bool
  | .block _ _ _ closing => closing.isNone
  | _ => false

/-- Whether the node is text that has no place in the tree, other than blanks. -/
def isStray : Node → Bool
  | .unknown text _ => !Text.isBlankOnly text
  | _ => false

/-- How much of what is wrong with a node is a problem of the given kind. -/
def damage : DiagnosticKind → Node → Nat
  | .syntaxMismatch, n => missingOperands n + (isUnclosedBracket n).toNat
  | .unmatchedBlock, n => (isUnclosedBlock n).toNat
  | .unexpectedToken, n => (isStray n).toNat
  | _, _ => 0

/-- How much is wrong, in terms of the given kind, with a place that an operand has to fill. -/
def owed (kind : DiagnosticKind) (n : Option Node) : Nat :=
  if kind = .syntaxMismatch ∧ n = none then 1 else 0

@[simp] theorem owed_some (kind : DiagnosticKind) (n : Node) : owed kind (some n) = 0 := by
  simp [owed]

/-- The damage of a node that is not at fault itself is that of its places for operands. -/
theorem damage_sound {n : Node} (hbracket : isUnclosedBracket n = false)
    (hblock : isUnclosedBlock n = false) (hstray : isStray n = false) (kind : DiagnosticKind) :
    damage kind n = (n.required.map (owed kind)).sum := by
  have hnone : ∀ ns : List (Option Node),
      (ns.map (owed .syntaxMismatch)).sum = ns.countP Option.isNone := by
    intro ns
    induction ns with
    | nil => rfl
    | cons n ns ih => cases n <;> simp [owed, ih, Nat.add_comm]
  have hzero : ∀ ns : List (Option Node), kind ≠ .syntaxMismatch →
      (ns.map (owed kind)).sum = 0 := by
    intro ns hk
    induction ns with
    | nil => rfl
    | cons n ns ih => simp [owed, hk, ih]
  cases kind with
  | syntaxMismatch => simp [damage, hbracket, hnone, missingOperands]
  | unmatchedBlock => simp [damage, hblock, hzero]
  | unexpectedToken => simp [damage, hstray, hzero]
  | lexicalAnomaly | livenessGuard => simp [damage, hzero]

theorem damage_unclosed (kind : DiagnosticKind) (inner : Option Node) :
    damage kind (.bracketed inner false) = owed kind inner + owed kind none := by
  cases kind <;> cases inner <;> rfl

theorem damage_block (kind : DiagnosticKind) (keyword : Text) (head : Option Node)
    (body : List (Option Node)) (closing : Option Node) :
    damage kind (.block keyword head body closing) =
      if kind = .unmatchedBlock ∧ closing = none then 1 else 0 := by
  cases kind <;> cases closing <;> rfl

/-! ## The damage of a tree -/

/-- The damage of all nodes together. -/
def totalDamage (kind : DiagnosticKind) (ns : List Node) : Nat := (ns.map (damage kind)).sum

@[simp] theorem totalDamage_nil (kind : DiagnosticKind) : totalDamage kind [] = 0 := rfl

@[simp] theorem totalDamage_cons (kind : DiagnosticKind) (n : Node) (ns : List Node) :
    totalDamage kind (n :: ns) = damage kind n + totalDamage kind ns := by
  simp [totalDamage]

@[simp] theorem totalDamage_append (kind : DiagnosticKind) (ns ms : List Node) :
    totalDamage kind (ns ++ ms) = totalDamage kind ns + totalDamage kind ms := by
  simp [totalDamage]

theorem sum_map_toNat {α : Type} (p : α → Bool) (xs : List α) :
    (xs.map fun x => (p x).toNat).sum = xs.countP p := by
  induction xs with
  | nil => rfl
  | cons x xs ih => cases h : p x <;> simp [h, ih, Nat.add_comm]

theorem totalDamage_syntaxMismatch (ns : List Node) :
    totalDamage .syntaxMismatch ns =
      (ns.map missingOperands).sum + ns.countP isUnclosedBracket := by
  rw [← sum_map_toNat]
  induction ns with
  | nil => rfl
  | cons n ns ih =>
    rw [totalDamage_cons, ih]
    simp only [damage, List.map_cons, List.sum_cons]
    omega

theorem totalDamage_unmatchedBlock (ns : List Node) :
    totalDamage .unmatchedBlock ns = ns.countP isUnclosedBlock := sum_map_toNat _ ns

theorem totalDamage_unexpectedToken (ns : List Node) :
    totalDamage .unexpectedToken ns = ns.countP isStray := sum_map_toNat _ ns

/-- The damage of a tree that may be missing. -/
def damage? (kind : DiagnosticKind) (n : Option Node) : Nat := totalDamage kind (nodes? n)

@[simp] theorem damage?_none (kind : DiagnosticKind) : damage? kind none = 0 := rfl

/-- The damage of a tree is that of its root and of the trees below it. -/
theorem damage?_some (kind : DiagnosticKind) (n : Node) :
    damage? kind (some n) = damage kind n + (n.children.map (damage? kind)).sum := by
  have hchildren : ∀ ns : List (Option Node),
      totalDamage kind (nodesOf ns) = (ns.map (damage? kind)).sum := by
    intro ns
    induction ns with
    | nil => rfl
    | cons n ns ih => rw [nodesOf, totalDamage_append, ih]; rfl
  rw [damage?, nodes?, nodes_eq, totalDamage_cons, hchildren]

end Gcode.Node
