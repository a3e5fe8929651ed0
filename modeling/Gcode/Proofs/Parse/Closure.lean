import Gcode.Proofs.Parse.Grown

/-!
# How blocks are closed

A block is closed by the first line of it that may close it: an o-word with a label that matches
that of the opening line, and the closing keyword. The label is read three times, once to see
whether the line closes the block and once more by whatever reads the line then, and each time
from the same place at the same depth.

## Main definitions

* `Node.ClosedFirst` — a block that is closed by the first line that may close it.

## Main statements

* `Reading.Expression.every_ne_block` — no block is inside an expression.
* `parse_closedFirst` — every block of a program that was parsed is closed by the first line that
  may close it.
-/

namespace Gcode

/-- No block is inside an expression. -/
theorem Reading.Expression.every_ne_block {cut : Prop} {n : Option Node} {ahead rest : List Token}
    (h : Reading.Expression cut n ahead rest) :
    Node.Every (fun m => ∀ k h b c, m ≠ .block k h b c) n := by
  induction h with
  | missing => exact Node.every_none
  | number | parameter | cutOff =>
    refine Node.every_some_iff.mpr ⟨by simp, ?_⟩
    simp [Node.children, Node.operands]
  | word _ _ ih | call _ _ ih | unary _ _ ih | closed _ _ _ ih | unclosed _ _ _ ih =>
    refine Node.every_some_iff.mpr ⟨by simp, ?_⟩
    simpa [Node.children, Node.operands] using ih
  | binary _ _ _ ihl ihr =>
    refine Node.every_some_iff.mpr ⟨by simp, ?_⟩
    simpa [Node.children, Node.operands] using ⟨ihl, ihr⟩

/-- A block that is closed by the first line of it that may close it. It begins with a header of
its keyword, which opens a block. If it ends with a header, that one has the closing keyword and a
matching label. No statement directly in it has a header with the closing keyword and a matching
label. -/
def Node.ClosedFirst (keyword : Text) (head : Option Node) (body : List (Option Node))
    (closing : Option Node) : Prop :=
  ∃ oWord label condition close, head = some (.header oWord label keyword condition) ∧
    Keyword.closing? keyword = some close ∧
    (∀ last ∈ closing, ∃ oWord' label' condition', last = .header oWord' label' close condition' ∧
      labelsMatch label label' = .ok true) ∧
    ∀ statement ∈ body, ∃ n, statement = some n ∧
      ∀ label', n.heading? = some (label', close) → labelsMatch label label' = .ok false

theorem Parse.Grown.closedFirst {s : Setting} {E : Nat → Option Node → Prop} {depth : Nat}
    {keyword : Text} {head closing : Option Node} {body : List (Option Node)}
    (h : Parse.Grown s E depth (.block keyword head body closing)) :
    Node.ClosedFirst keyword head body closing := by
  cases h with
  | block _ hclose _ _ hopen hend =>
    refine ⟨_, _, _, _, rfl, hclose, fun last hlast => (hend last hlast).2, fun c hc => ?_⟩
    obtain ⟨n, hn, rfl⟩ := List.mem_map.mp hc
    exact ⟨n, rfl, hopen n hn⟩

/-- Every block of a program that was parsed from any tokens is closed by the first line of it that
may close it. -/
theorem parse_closedFirst (tokens : List Token) (limits : Limits) :
    ∃ program reports, parse tokens limits = .ok (program, reports) ∧
      ∀ keyword head body closing,
        Node.Inside (.block keyword head body closing) program.node →
        Node.ClosedFirst keyword head body closing := by
  let P (m : Node) : Prop := ∀ keyword head body closing, m = .block keyword head body closing →
    Node.ClosedFirst keyword head body closing
  have hweaken : ∀ m : Node, (∀ k h b c, m ≠ .block k h b c) → P m := fun m hm k h b c heq =>
    absurd heq (hm k h b c)
  have hE : ∀ s, Parse.Expressions s fun _ => Node.Every P := fun s =>
    { missing := fun _ => Node.every_none
      value := fun depth ahead =>
        (@Parse.value_reads s True depth ahead fun _ => trivial).every_ne_block.imp hweaken
      bracket := fun depth ahead =>
        (@Parse.optionalBracket_reads s True depth ahead fun _ => trivial).every_ne_block.imp
          hweaken
      word := fun h => Node.every_some_iff.mpr
        ⟨hweaken _ (by simp), by simpa [Node.children, Node.operands] using h⟩
      call := fun h => Node.every_some_iff.mpr
        ⟨hweaken _ (by simp), by simpa [Node.children, Node.operands] using h⟩ }
  obtain ⟨program, reports, hparse, hevery⟩ := exists_parse_every hE
    (fun n hn => hweaken n hn.2) (fun _ k h b c hblock _ _ _ _ heq => by
      cases heq
      exact hblock.closedFirst) tokens limits
  exact ⟨program, reports, hparse, fun k h b c hinside =>
    hevery _ rfl _ hinside k h b c rfl⟩

end Gcode
