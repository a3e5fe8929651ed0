import Gcode.Proofs.Node.Standing
import Gcode.Proofs.Parse.Lossless
import Gcode.Proofs.Source.Compact

/-!
# Where a node was read

A tree that is read from tokens was read part by part: each node that stands in it was itself read
from some of the tokens. What is before the node in the tree are the texts of the tokens before
these, and what is behind it are the texts of those behind.

## Main definitions

* `Reading.Reads` — a tree of any kind and the tokens that it is read from.
* `Reading.Fills` — a text of a node, or a child, and the tokens that it is read from.

## Main statements

* `Reading.Reads.items` — what a node has from left to right is read in that order.
* `Reading.Reads.exists_origin` — a node was read from the tokens at its place.
* `Reading.Run.exists_region` — a node of a program has its place in the program.
-/

namespace Gcode.Reading

open Gcode.Part (Spell)
open Token (texts)

variable (cut : Prop)

/-- The tree, which may be missing, stands for the first tokens of a list. -/
inductive Reads : Option Node → List Token → List Token → Prop
  | expression {n : Option Node} {ahead rest : List Token} : Expression cut n ahead rest →
    Reads n ahead rest
  | command {n : Node} {ahead rest : List Token} : Command cut n ahead rest →
    Reads (some n) ahead rest
  | header {n : Node} {ahead rest : List Token} : Header cut n ahead rest →
    Reads (some n) ahead rest
  | line {nodes : List Node} {ahead rest : List Token} : Series (Command cut) nodes ahead rest →
    Reads (some (.commandLine (nodes.map some))) ahead rest
  | simple {n : Node} {ahead rest : List Token} : Simple cut n ahead rest →
    Reads (some n) ahead rest
  | block {keyword : Text} {head : Node} {body : List Node} {closing : Option Node}
    {ahead inside last rest : List Token} : Header cut head ahead inside →
    Statements cut body inside last → Closing cut closing last rest →
    Reads (some (.block keyword (some head) (body.map some) closing)) ahead rest
  /-- What was left when the statements were cut off. -/
  | remainder (line : Int) (ts : List Token) : Reads (some (.unknown (texts ts) line)) ts []
  | program {nodes : List Node} {ts : List Token} : Program cut nodes ts →
    Reads (some (.program (nodes.map some))) ts []

/-- The item stands for the first tokens of a list. -/
inductive Fills : Node.Item → List Token → List Token → Prop
  | own {part : Part} {used : List Token} (rest : List Token) : part.Admits (texts used) →
    Fills (.own part) (used ++ rest) rest
  | child {n : Option Node} {ahead rest : List Token} : Reads cut n ahead rest →
    Fills (.child n) ahead rest

variable {cut}

/-! ## Items one behind the other -/

/-- A token that is a text of the node stands before the other items. -/
theorem Series.token {part : Part} {items : List Node.Item} {t : Token} {ahead rest : List Token}
    (ht : part.Admits t.value) (h : Series (Fills cut) items ahead rest) :
    Series (Fills cut) (.own part :: items) (t :: ahead) rest := by
  have hown : part.Admits (texts [t]) := by rwa [Token.texts_cons, Token.texts_nil, List.append_nil]
  exact .cons (.own ahead hown) h

/-- A child stands before the other items. -/
theorem Series.tree {n : Option Node} {items : List Node.Item} {ahead behind rest : List Token}
    (hn : Reads cut n ahead behind) (h : Series (Fills cut) items behind rest) :
    Series (Fills cut) (.child n :: items) ahead rest := .cons (.child hn) h

/-- A text of its own is all that the node has. -/
theorem Series.leaf (used rest : List Token) :
    Series (Fills cut) [.own (.verbatim (texts used))] (used ++ rest) rest :=
  .single (.own rest rfl)

/-! ## The parts of a node -/

theorem Expression.items {n : Node} {ahead rest : List Token}
    (h : Expression cut (some n) ahead rest) (hs : Shaped ahead) :
    Series (Fills cut) n.items ahead rest := by
  cases h with
  | number | parameter => exact .token rfl (.nil _)
  | word _ h | call _ h | unary _ h => exact .token rfl (.tree (.expression h) (.nil _))
  | binary _ hl hr =>
    exact .tree (.expression hl) (.token rfl (.tree (.expression hr) (.nil _)))
  | closed ht hu h =>
    have hopen := Token.Shape.eq_openBracket (ht ▸ hs.head)
    have hclose := Token.Shape.eq_closeBracket (hu ▸ (hs.tail.of_suffix h.suffix).head)
    exact .token hopen (.tree (.expression h) (.token hclose (.nil _)))
  | unclosed ht _ h =>
    have hopen := Token.Shape.eq_openBracket (ht ▸ hs.head)
    exact .token hopen (.tree (.expression h) (.nil _))
  | cutOff _ _ hused =>
    rw [hused]
    exact .leaf _ _

theorem Command.items {n : Node} {ahead rest : List Token} (h : Command cut n ahead rest)
    (hs : Shaped ahead) : Series (Fills cut) n.items ahead rest := by
  cases h with
  | comment => exact .token rfl (.nil _)
  | expression h => exact h.items hs
  | stray _ _ hused =>
    rw [hused]
    exact .leaf _ _

theorem items_commands {nodes : List Node} {ahead rest : List Token}
    (h : Series (Command cut) nodes ahead rest) :
    Series (Fills cut) ((nodes.map some).map .child) ahead rest := by
  rw [List.map_map]
  exact h.map fun _ _ _ hc => .child (.command hc)

theorem Header.items {n : Node} {ahead rest : List Token} (h : Header cut n ahead rest)
    (hs : Shaped ahead) : Series (Fills cut) n.items ahead rest := by
  cases h with
  | bare _ hl =>
    refine .token rfl (.tree (.expression hl) ?_)
    have hnone : (Part.keyword []).Admits (texts []) := ⟨by simp [Text.Ascii], rfl⟩
    exact .cons (.own rest hnone) (.tree (.expression (.missing rest)) (.nil _))
  | keyed _ hl hu hc =>
    have hflow := (hs.tail.of_suffix hl.suffix).head
    rw [hu] at hflow
    refine .token rfl (.tree (.expression hl) (.token ?_ (.tree (.expression hc) (.nil _))))
    exact ⟨hflow.ascii, (Text.folded_upper hflow.ascii).symm⟩

theorem Closing.reads {n : Option Node} {ahead rest : List Token}
    (h : Closing cut n ahead rest) : Reads cut n ahead rest := by
  cases h with
  | missing => exact .expression (.missing _)
  | header h => exact .header h

theorem Simple.items {n : Node} {ahead rest : List Token} (h : Simple cut n ahead rest)
    (hs : Shaped ahead) : Series (Fills cut) n.items ahead rest := by
  cases h with
  | lineBreak | comment => exact .token rfl (.nil _)
  | stray _ _ hused =>
    rw [hused]
    exact .leaf _ _
  | assignment _ hu h =>
    have hassign := Token.Shape.eq_assign (hu ▸ hs.tail.head)
    exact .token rfl (.token hassign (.tree (.expression h) (.nil _)))
  | commands _ _ h => exact items_commands h
  | flat hh hc => exact .tree (.header hh) (.tree (.line hc) (.nil _))

theorem Statements.items {nodes : List Node} {ahead rest : List Token}
    (h : Statements cut nodes ahead rest) :
    Series (Fills cut) ((nodes.map some).map .child) ahead rest := by
  induction h with
  | nil => exact .nil _
  | simple h _ ih => exact .tree (.simple h) ih
  | block hh hb hc _ _ ih => exact .tree (.block hh hb hc) ih

theorem Program.items {nodes : List Node} {ts : List Token} (h : Program cut nodes ts) :
    Series (Fills cut) ((nodes.map some).map .child) ts [] := by
  cases h with
  | whole h => exact h.items
  | cutOff line _ _ h =>
    rw [List.map_append, List.map_append]
    exact h.items.append (.single (.child (.remainder line _)))

namespace Reads

variable {n : Option Node} {ahead rest : List Token}

theorem suffix (h : Reads cut n ahead rest) : rest <:+ ahead := by
  cases h with
  | expression h | command h | header h | simple h => exact h.suffix
  | line h => exact h.suffix fun _ _ _ => Command.suffix
  | block hh hb hc => exact hc.suffix.trans (hb.suffix.trans hh.suffix)
  | remainder | program => exact List.nil_suffix

/-- What a node has from left to right is read in that order. -/
theorem items {n : Node} (h : Reads cut (some n) ahead rest) (hs : Shaped ahead) :
    Series (Fills cut) n.items ahead rest := by
  cases h with
  | expression h | command h | header h | simple h => exact h.items hs
  | line h => exact items_commands h
  | block hh hb hc =>
    exact .tree (.header hh) (hb.items.append (.single (.child hc.reads)))
  | remainder line =>
    have hleaf := @Series.leaf cut ahead []
    rwa [List.append_nil] at hleaf
  | program h => exact h.items

/-- What is read stands for the texts of the tokens that are taken. -/
theorem reaches (h : Reads cut n ahead rest) (hs : Shaped ahead) :
    Reaches (Node.parts? n) (texts ahead) (texts rest) := by
  cases h with
  | expression h | command h | header h | simple h => exact h.reaches hs
  | line h => exact reaches_commands h hs
  | block hh hb hc =>
    have hinside := hs.of_suffix hh.suffix
    exact ((hh.reaches hs).append (hb.reaches hinside).1).append
      (hc.reaches (hinside.of_suffix hb.suffix))
  | remainder line =>
    have htext := Reaches.verbatim (texts ahead) []
    rwa [List.append_nil] at htext
  | program h => exact ⟨_, h.spell hs, (List.append_nil _).symm⟩

end Reads

theorem Fills.suffix {item : Node.Item} {ahead rest : List Token} (h : Fills cut item ahead rest) :
    rest <:+ ahead := by
  cases h with
  | own => exact List.suffix_append _ _
  | child h => exact h.suffix

theorem reaches_items {items : List Node.Item} {ahead rest : List Token}
    (h : Series (Fills cut) items ahead rest) (hs : Shaped ahead) :
    Reaches (items.flatMap Node.Item.parts) (texts ahead) (texts rest) := by
  induction h with
  | nil => exact .refl _
  | cons hitem _ ih =>
    have hbehind := ih (hs.of_suffix hitem.suffix)
    cases hitem with
    | own rest ha =>
      rw [Token.texts_append]
      exact .cons ha hbehind
    | child hn => exact (hn.reaches hs).append hbehind

/-! ## Every node of a tree -/

/-- A node that stands in a tree was read from the tokens at its place. -/
theorem Reads.exists_origin {m root : Node} {before behind : List Part} {ahead rest : List Token}
    (hm : Node.Stands m before behind root) (h : Reads cut (some root) ahead rest)
    (hs : Shaped ahead) : ∃ first last, Reads cut (some m) first last ∧ first <:+ ahead ∧
      Reaches before (texts ahead) (texts first) ∧ Reaches behind (texts last) (texts rest) := by
  induction hm generalizing ahead rest with
  | root => exact ⟨ahead, rest, h, List.suffix_rfl, .refl _, .refl _⟩
  | child hitems _ ih =>
    have hseries := h.items hs
    rw [hitems] at hseries
    obtain ⟨start, hleft, hmore⟩ := hseries.of_append
    have hstart := hleft.suffix fun _ _ _ => Fills.suffix
    cases hmore with
    | cons hchild hright =>
      cases hchild with
      | child hc =>
        obtain ⟨first, last, hread, hfirst, hbefore, hbehind⟩ := ih hc (hs.of_suffix hstart)
        have hshaped := (hs.of_suffix hstart).of_suffix hc.suffix
        exact ⟨first, last, hread, hfirst.trans hstart,
          (reaches_items hleft hs).append hbefore, hbehind.append (reaches_items hright hshaped)⟩

/-- A node of a program was read from the tokens at its place, and what of the program is before and
behind them is before and behind it in the tree. -/
theorem Run.exists_region {source : Text} {limits : Limits} (run : Run source limits) {m : Node}
    {before behind : List Part} (hm : Node.Stands m before behind run.read.program.node) :
    ∃ first last x y u v, Reads (Guarded run.reports) (some m) first last ∧ first <:+ run.tokens ∧
      source = x ++ y ∧ Text.Thinned x (u ++ v) ∧ Text.Thinned y (texts last) ∧
      compact source = u ++ v ++ texts last ∧
      Spell before u ∧ Spell m.parts v ∧ Spell behind (texts last) := by
  obtain ⟨first, last, hread, hfirst, hbefore, hbehind⟩ :=
    Reads.exists_origin hm (.program run.reads) run.lexed.shape
  obtain ⟨u, hu, hstart⟩ := hbefore
  obtain ⟨v, hv, hmiddle⟩ := hread.reaches (Shaped.of_suffix run.lexed.shape hfirst)
  obtain ⟨w, hw, hend⟩ := hbehind
  rw [Token.texts_nil, List.append_nil] at hend
  have hcompact : compact source = u ++ v ++ texts last := by
    rw [← run.texts_eq, hstart, hmiddle, List.append_assoc]
  have hthinned := thinned_compact source
  rw [hcompact] at hthinned
  obtain ⟨x, y, hcut, hx, hy⟩ := hthinned.exists_append
  exact ⟨first, last, x, y, u, v, hread, hfirst, hcut, hx, hy, hcompact, hu, hv, hend ▸ hw⟩

end Gcode.Reading
