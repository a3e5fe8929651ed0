import Gcode.Proofs.Node.Inside
import Gcode.Token.Keyword

/-!
# Trees of operators

Operators with their operands make a tree, whose leaves are the operands that have no operator at
their root. Read from left to right, the tree is a first operand and links, each an operator and
the operand behind it. Of the trees that read the same, one is ranked: operators of higher
precedence are served first, and of those of equal precedence the left one.

## Main definitions

* `Node.Ranked` — an operator is served after those of its operands.
* `Node.firstOperand`, `Node.links` — a tree of operators from left to right.

## Main statements

* `Node.eq_of_links` — of the trees that read the same, only one is ranked.
-/

namespace Gcode.Node

open Keyword (precedence)

/-- The operator at the root, if there is one, binds at least as tight as `least`. -/
def BindsAtLeast (least : Int) (n : Option Node) : Prop :=
  ∀ operator left right, n = some (.binary operator left right) →
    least ≤ (precedence operator : Int)

/-- If the node is an operator with its operands, it binds no tighter than an operator at the root
of the left one, and looser than one at the root of the right one. -/
def Ranked (n : Node) : Prop :=
  ∀ operator left right, n = .binary operator left right →
    BindsAtLeast (precedence operator) left ∧ BindsAtLeast (precedence operator + 1) right

/-- There is no operator at the root. -/
def NoOperator (n : Option Node) : Prop :=
  ∀ operator left right, n ≠ some (.binary operator left right)

theorem noOperator_or (n : Option Node) :
    NoOperator n ∨ ∃ operator left right, n = some (.binary operator left right) := by
  cases n with
  | none => exact .inl (by simp [NoOperator])
  | some n =>
    cases n with
    | binary operator left right => exact .inr ⟨operator, left, right, rfl⟩
    | _ => exact .inl (by simp [NoOperator])

mutual

/-- The first operand in a tree of operators. -/
def firstOperand : Node → Option Node
  | .binary _ left _ => firstOperand? left
  | n => some n

/-- The first operand in a tree of operators that may be missing. -/
def firstOperand? : Option Node → Option Node
  | none => none
  | some n => firstOperand n

end

mutual

/-- The operators of a tree from left to right, each with the operand behind it. -/
def links : Node → List (Text × Option Node)
  | .binary operator left right => links? left ++ (operator, firstOperand? right) :: links? right
  | _ => []

/-- The operators of a tree that may be missing. -/
def links? : Option Node → List (Text × Option Node)
  | none => []
  | some n => links n

end

@[simp] theorem firstOperand?_binary (operator : Text) (left right : Option Node) :
    firstOperand? (some (.binary operator left right)) = firstOperand? left := rfl

@[simp] theorem links?_binary (operator : Text) (left right : Option Node) :
    links? (some (.binary operator left right)) =
      links? left ++ (operator, firstOperand? right) :: links? right := rfl

theorem NoOperator.firstOperand?_eq {n : Option Node} (h : NoOperator n) :
    firstOperand? n = n := by
  cases n with
  | none => rfl
  | some n =>
    cases n with
    | binary operator left right => exact absurd rfl (h operator left right)
    | _ => rfl

theorem NoOperator.links?_eq {n : Option Node} (h : NoOperator n) : links? n = [] := by
  cases n with
  | none => rfl
  | some n =>
    cases n with
    | binary operator left right => exact absurd rfl (h operator left right)
    | _ => rfl

theorem NoOperator.bindsAtLeast {n : Option Node} (h : NoOperator n) (least : Int) :
    BindsAtLeast least n := fun operator left right hn => absurd hn (h operator left right)

theorem NoOperator.ranked {n : Node} (h : NoOperator (some n)) : Ranked n :=
  fun operator left right hn => absurd (congrArg some hn) (h operator left right)

theorem BindsAtLeast.mono {least least' : Int} {n : Option Node} (h : BindsAtLeast least n)
    (hle : least' ≤ least) : BindsAtLeast least' n :=
  fun operator left right hn => Int.le_trans hle (h operator left right hn)

theorem every_ranked_binary {operator : Text} {left right : Option Node} :
    Every Ranked (some (.binary operator left right)) ↔
      (BindsAtLeast (precedence operator) left ∧ BindsAtLeast (precedence operator + 1) right) ∧
        Every Ranked left ∧ Every Ranked right := by
  rw [every_some_iff]
  refine and_congr ⟨fun h => h _ _ _ rfl, ?_⟩ (by simp [children, operands])
  rintro h _ _ _ ⟨⟩
  exact h

/-- Induction over a tree of operators: its leaves have no operator at the root. -/
@[elab_as_elim]
theorem operatorInduction {motive : Option Node → Prop}
    (leaf : ∀ n, NoOperator n → motive n)
    (binary : ∀ operator left right, motive left → motive right →
      motive (some (.binary operator left right))) (n : Option Node) : motive n := by
  rcases noOperator_or n with h | ⟨operator, left, right, hn⟩
  · exact leaf n h
  · rw [hn]
    exact binary operator left right (operatorInduction leaf binary left)
      (operatorInduction leaf binary right)
termination_by sizeOf n
decreasing_by
  all_goals
    rw [hn]
    simp only [Option.some.sizeOf_spec, Node.binary.sizeOf_spec]
    omega

/-! ## The ranked tree -/

/-- All operators of a ranked tree bind at least as tight as the one at the root. -/
theorem le_precedence_of_mem_links? {n : Option Node} {least : Int} (h : Every Ranked n)
    (hleast : BindsAtLeast least n) : ∀ link ∈ links? n, least ≤ (precedence link.1 : Int) := by
  induction n using operatorInduction generalizing least with
  | leaf n hn => simp [hn.links?_eq]
  | binary operator left right ihl ihr =>
    obtain ⟨⟨hleft, hright⟩, hl, hr⟩ := every_ranked_binary.mp h
    have hroot : least ≤ precedence operator := hleast _ _ _ rfl
    rw [links?_binary]
    refine List.forall_mem_append.mpr ⟨ihl hl (hleft.mono hroot), ?_⟩
    exact List.forall_mem_cons.mpr ⟨hroot, ihr hr (hright.mono (by omega))⟩

/-- In two equal lists, the last of the entries of least weight is the same one. -/
theorem eq_of_append_cons {α : Type} {w : α → Int} {xs ys xs' ys' : List α} {a b : α}
    (h : xs ++ a :: ys = xs' ++ b :: ys') (hxs : ∀ x ∈ xs, w a ≤ w x)
    (hys : ∀ y ∈ ys, w a + 1 ≤ w y) (hxs' : ∀ x ∈ xs', w b ≤ w x)
    (hys' : ∀ y ∈ ys', w b + 1 ≤ w y) : xs = xs' ∧ a = b ∧ ys = ys' := by
  rcases List.append_eq_append_iff.mp h with ⟨between, rfl, hrest⟩ | ⟨between, rfl, hrest⟩
  · cases between with
    | nil => simpa using hrest
    | cons c between =>
      obtain ⟨rfl, rfl⟩ := List.cons.inj hrest
      have hab := hxs' a (by simp)
      have hba := hys b (by simp)
      omega
  · cases between with
    | nil => simpa [eq_comm] using hrest
    | cons c between =>
      obtain ⟨rfl, rfl⟩ := List.cons.inj hrest
      have hab := hxs b (by simp)
      have hba := hys' a (by simp)
      omega

/-- Two ranked trees with the same operands and operators in order are the same. -/
theorem eq_of_links {m n : Option Node} (hm : Every Ranked m) (hn : Every Ranked n)
    (hfirst : firstOperand? m = firstOperand? n) (hlinks : links? m = links? n) : m = n := by
  induction m using operatorInduction generalizing n with
  | leaf m hleaf =>
    rw [hleaf.links?_eq] at hlinks
    rcases noOperator_or n with hleaf' | ⟨_, _, _, rfl⟩
    · rwa [hleaf.firstOperand?_eq, hleaf'.firstOperand?_eq] at hfirst
    · simp at hlinks
  | binary operator left right ihl ihr =>
    rcases noOperator_or n with hleaf | ⟨operator', left', right', rfl⟩
    · rw [hleaf.links?_eq] at hlinks
      simp at hlinks
    · obtain ⟨⟨hleft, hright⟩, hl, hr⟩ := every_ranked_binary.mp hm
      obtain ⟨⟨hleft', hright'⟩, hl', hr'⟩ := every_ranked_binary.mp hn
      obtain ⟨hlefts, hroot, hrights⟩ :=
        eq_of_append_cons (w := fun link => (precedence link.1 : Int)) hlinks
          (le_precedence_of_mem_links? hl hleft) (le_precedence_of_mem_links? hr hright)
          (le_precedence_of_mem_links? hl' hleft') (le_precedence_of_mem_links? hr' hright')
      obtain ⟨rfl, hfirst'⟩ := Prod.mk.inj hroot
      rw [ihl hl hl' hfirst hlefts, ihr hr hr' hfirst' hrights]

end Gcode.Node
