import Gcode.Node.Height
import Gcode.Node.Label
import Gcode.Proofs.Node.Part

/-!
# Trees without regard to case

A folded tree has all its texts folded; only the keywords of headers and blocks, which are in
upper case anyway, stay as they are. Folding changes neither the height of an expression nor which
labels match. A tree is known from its folded form and the texts that it holds.

## Main definitions

* `Node.folded` — a tree with its texts folded.
* `Style.Caseless` — a style in which writing commutes with folding.

## Main statements

* `Style.Caseless.text_folded` — in such a style, a folded expression is written folded.
* `Node.labelsMatch_folded` — labels match if their folded forms match.
* `Node.eq_of_folded_eq` — trees with the same texts and the same folded form are the same.
-/

namespace Gcode

namespace Part

/-- The part with its text folded, unless it is a keyword. -/
def folded : Part → Part
  | .verbatim text => .verbatim (Text.folded text)
  | .keyword text => .keyword text

/-- Parts that agree when folded, where one of them stands for the canonical form of the other,
are the same. -/
theorem Spell.eq_of_folded_eq {ps qs : List Part} (hf : ps.map folded = qs.map folded)
    (h : Spell ps (qs.flatMap lowered)) : ps = qs := by
  induction ps generalizing qs with
  | nil => exact (List.map_eq_nil_iff.mp hf.symm).symm
  | cons p ps ih =>
    cases qs with
    | nil => cases hf
    | cons q qs =>
      obtain ⟨hpart, hf⟩ := List.cons.inj hf
      rw [List.flatMap_cons] at h
      generalize htext : q.lowered ++ qs.flatMap lowered = text at h
      cases h with
      | @cons _ _ t u ha hspell =>
        have key : q.lowered.length = t.length ∧ (q.lowered = t → p = q) := by
          cases p with
          | verbatim a =>
            cases q with
            | verbatim b =>
              obtain rfl : t = a := ha
              have hlength := congrArg List.length (Part.verbatim.inj hpart)
              rw [Text.length_folded, Text.length_folded] at hlength
              exact ⟨hlength.symm, fun heq => congrArg Part.verbatim heq.symm⟩
            | keyword b => cases hpart
          | keyword a =>
            cases q with
            | verbatim b => cases hpart
            | keyword b =>
              obtain rfl : a = b := Part.keyword.inj hpart
              refine ⟨?_, fun _ => rfl⟩
              rw [lowered, ← Text.lower_eq_of_folded_eq ha.2, Text.lower_eq_folded ha.1,
                Text.length_folded]
        obtain ⟨hfirst, hrest⟩ := List.append_inj htext key.1
        rw [key.2 hfirst, ih hf (hrest ▸ hspell)]

end Part

namespace Node

mutual

/-- The node with its texts folded. -/
def folded : Node → Node
  | .number text => .number (Text.folded text)
  | .parameter text => .parameter (Text.folded text)
  | .unary operator operand => .unary (Text.folded operator) (folded? operand)
  | .binary operator left right => .binary (Text.folded operator) (folded? left) (folded? right)
  | .bracketed inner closed => .bracketed (folded? inner) closed
  | .word letter value => .word (Text.folded letter) (folded? value)
  | .call name argument => .call (Text.folded name) (folded? argument)
  | .unknown text line => .unknown (Text.folded text) line
  | .comment text => .comment (Text.folded text)
  | .endOfLine text => .endOfLine (Text.folded text)
  | .header oWord label keyword condition =>
    .header (Text.folded oWord) (folded? label) keyword (folded? condition)
  | .commandLine nodes => .commandLine (foldedOf nodes)
  | .oStatement head line => .oStatement (folded? head) (folded? line)
  | .assignment target value => .assignment (Text.folded target) (folded? value)
  | .block keyword head body closing =>
    .block keyword (folded? head) (foldedOf body) (folded? closing)
  | .program statements => .program (foldedOf statements)

/-- A node that may be missing with its texts folded. -/
def folded? : Option Node → Option Node
  | none => none
  | some node => some (folded node)

/-- Nodes with their texts folded. -/
def foldedOf : List (Option Node) → List (Option Node)
  | [] => []
  | node :: nodes => folded? node :: foldedOf nodes

end

@[simp] theorem folded?_none : folded? none = none := rfl

@[simp] theorem folded?_some (node : Node) : folded? (some node) = some (folded node) := rfl

theorem foldedOf_map_some (nodes : List Node) :
    foldedOf (nodes.map some) = (nodes.map folded).map some := by
  induction nodes with
  | nil => rfl
  | cons node nodes ih => simp [foldedOf, ih]

/-! ## Heights and labels -/

mutual

theorem longestPath_folded (n : Node) : longestPath (folded n) = longestPath n := by
  match n with
  | .unary _ operand | .bracketed operand _ | .word _ operand | .call _ operand =>
    simp only [folded, longestPath, longestPath?_folded operand]
  | .binary _ left right =>
    simp only [folded, longestPath, longestPath?_folded left, longestPath?_folded right]
  | .number _ | .parameter _ | .unknown _ _ | .comment _ | .endOfLine _ | .header _ _ _ _
  | .commandLine _ | .oStatement _ _ | .assignment _ _ | .block _ _ _ _ | .program _ => rfl

theorem longestPath?_folded (n : Option Node) : longestPath? (folded? n) = longestPath? n := by
  match n with
  | none => rfl
  | some n => exact longestPath_folded n

end

@[simp] theorem height_folded (n : Option Node) : height (folded? n) = height n := by
  rw [height_eq_longestPath?, height_eq_longestPath?, longestPath?_folded]

@[simp] theorem describedLabel_folded (n : Option Node) :
    describedLabel (folded? n) = Text.folded (describedLabel n) := by
  match n with
  | none => rfl
  | some n => cases n <;> rfl

end Node

/-- A style that writes a folded expression as it writes the expression, but folded. -/
structure Style.Caseless {ε : Type} (style : Style ε) : Prop where
  leaf : ∀ {n : Node} {text : Text}, style.leaf n = .ok text →
    style.leaf n.folded = .ok (Text.folded text)
  brackets : ∀ (inner : Text) (closed : Bool),
    style.brackets (Text.folded inner) closed = Text.folded (style.brackets inner closed)
  link : ∀ left operator right : Text,
    style.link (Text.folded left) (Text.folded operator) (Text.folded right) =
      Text.folded (style.link left operator right)

namespace Style.Caseless

open Node (folded folded?)

variable {ε : Type} {style : Style ε}

mutual

theorem plainText_folded (hs : style.Caseless) (n : Node) {text : Text}
    (h : style.plainText n = .ok text) : style.plainText (folded n) = .ok (Text.folded text) := by
  match n with
  | .unary sign operand | .word sign operand | .call sign operand =>
    obtain ⟨t, ht, rfl⟩ := map_eq_ok.mp h
    rw [Text.folded_append]
    exact map_eq_ok.mpr ⟨_, plainText?_folded hs operand ht, rfl⟩
  | .bracketed inner closed =>
    obtain ⟨t, ht, rfl⟩ := map_eq_ok.mp h
    exact map_eq_ok.mpr ⟨_, plainText?_folded hs inner ht, hs.brackets t closed⟩
  | .binary operator left right =>
    obtain ⟨t, ht, h⟩ := bind_eq_ok.mp h
    obtain ⟨u, hu, rfl⟩ := map_eq_ok.mp h
    have hright := map_eq_ok.mpr ⟨_, plainText?_folded hs right hu, hs.link t operator u⟩
    exact bind_eq_ok.mpr ⟨_, plainText?_folded hs left ht, hright⟩
  | .number _ | .parameter _ | .unknown _ _ | .comment _ | .endOfLine _ | .header _ _ _ _
  | .commandLine _ | .oStatement _ _ | .assignment _ _ | .block _ _ _ _ | .program _ =>
    exact hs.leaf h

theorem plainText?_folded (hs : style.Caseless) (n : Option Node) {text : Text}
    (h : style.plainText? n = .ok text) :
    style.plainText? (folded? n) = .ok (Text.folded text) := by
  match n with
  | none =>
    cases h
    rfl
  | some n => exact plainText_folded hs n h

end

theorem text_folded (hs : style.Caseless) {n : Option Node} {text : Text}
    (h : style.text n = .ok text) : style.text (folded? n) = .ok (Text.folded text) := by
  rw [text_eq_plainText?] at h ⊢
  exact hs.plainText?_folded n h

end Style.Caseless

namespace Node

theorem caseless_labelStyle : labelStyle.Caseless where
  leaf {n text} h := by
    cases n <;> cases h <;> rfl
  brackets inner _ := by
    simp only [labelStyle, Text.folded_append]
    rfl
  link left operator right := by
    simp only [labelStyle, Text.folded_append]
    rfl

theorem label_folded {n : Option Node} {text : Text} (h : label n = .ok text) :
    label (folded? n) = .ok (Text.folded text) := caseless_labelStyle.text_folded h

/-- Labels match if their folded forms match. -/
theorem labelsMatch_folded {a b : Option Node} {r : Bool} (h : labelsMatch a b = .ok r) :
    labelsMatch (folded? a) (folded? b) = .ok r := by
  obtain ⟨s, hs, h⟩ := bind_eq_ok.mp h
  obtain ⟨t, ht, rfl⟩ := map_eq_ok.mp h
  refine bind_eq_ok.mpr ⟨_, label_folded hs, map_eq_ok.mpr ⟨_, label_folded ht, ?_⟩⟩
  rw [Text.lower_folded, Text.lower_folded]

/-! ## Texts -/

mutual

theorem parts_folded (n : Node) : parts (folded n) = (parts n).map Part.folded := by
  match n with
  | .number _ | .parameter _ | .unknown _ _ | .comment _ | .endOfLine _ => rfl
  | .unary _ a | .word _ a | .call _ a =>
    simp [folded, parts, Part.folded, parts?_folded a]
  | .assignment _ a =>
    simp [folded, parts, Part.folded, parts?_folded a]
  | .bracketed inner closed =>
    cases closed <;> simp [folded, parts, Part.folded, parts?_folded inner]
  | .binary _ a b | .oStatement a b | .header _ a _ b =>
    simp [folded, parts, Part.folded, parts?_folded a, parts?_folded b]
  | .block _ head body closing =>
    simp [folded, parts, parts?_folded head, partsOf_folded body, parts?_folded closing]
  | .commandLine nodes | .program nodes => simp [folded, parts, partsOf_folded nodes]

theorem parts?_folded (n : Option Node) : parts? (folded? n) = (parts? n).map Part.folded := by
  match n with
  | none => rfl
  | some n => exact parts_folded n

theorem partsOf_folded (ns : List (Option Node)) :
    partsOf (foldedOf ns) = (partsOf ns).map Part.folded := by
  match ns with
  | [] => rfl
  | n :: ns => simp [foldedOf, partsOf, parts?_folded n, partsOf_folded ns]

end

/-- The texts of two expressions that agree when folded do not run into what stands behind. -/
theorem parts?_append_inj {a b : Option Node} {ps qs : List Part} (hf : folded? a = folded? b)
    (hp : parts? a ++ ps = parts? b ++ qs) : parts? a = parts? b ∧ ps = qs := by
  refine List.append_inj hp ?_
  have hlength := congrArg List.length (congrArg parts? hf)
  rwa [parts?_folded, parts?_folded, List.length_map, List.length_map] at hlength

theorem partsOf_append_inj {as bs : List (Option Node)} {ps qs : List Part}
    (hf : foldedOf as = foldedOf bs) (hp : partsOf as ++ ps = partsOf bs ++ qs) :
    partsOf as = partsOf bs ∧ ps = qs := by
  refine List.append_inj hp ?_
  have hlength := congrArg List.length (congrArg partsOf hf)
  rwa [partsOf_folded, partsOf_folded, List.length_map, List.length_map] at hlength

mutual

/-- A node is known from its folded form and its texts. -/
theorem eq_of_folded_eq (n m : Node) (hf : folded n = folded m) (hp : parts n = parts m) :
    n = m := by
  match n with
  | .number _ | .parameter _ | .unknown _ _ | .comment _ | .endOfLine _ =>
    cases m <;> simp_all [folded, parts]
  | .unary s a =>
    cases m with
    | unary t b =>
      simp only [folded, parts, Node.unary.injEq, List.cons.injEq, Part.verbatim.injEq] at hf hp
      rw [hp.1, eq_of_folded?_eq a b hf.2 hp.2]
    | _ => cases hf
  | .word s a =>
    cases m with
    | word t b =>
      simp only [folded, parts, Node.word.injEq, List.cons.injEq, Part.verbatim.injEq] at hf hp
      rw [hp.1, eq_of_folded?_eq a b hf.2 hp.2]
    | _ => cases hf
  | .call s a =>
    cases m with
    | call t b =>
      simp only [folded, parts, Node.call.injEq, List.cons.injEq, Part.verbatim.injEq] at hf hp
      rw [hp.1, eq_of_folded?_eq a b hf.2 hp.2]
    | _ => cases hf
  | .assignment s a =>
    cases m with
    | assignment t b =>
      simp only [folded, parts, Node.assignment.injEq, List.cons.injEq, Part.verbatim.injEq,
        true_and] at hf hp
      rw [hp.1, eq_of_folded?_eq a b hf.2 hp.2]
    | _ => cases hf
  | .bracketed a c =>
    cases m with
    | bracketed b d =>
      simp only [folded, parts, Node.bracketed.injEq, List.cons_append, List.cons.injEq,
        true_and] at hf hp
      obtain ⟨hf, rfl⟩ := hf
      rw [eq_of_folded?_eq a b hf (parts?_append_inj hf hp).1]
    | _ => cases hf
  | .binary s a b =>
    cases m with
    | binary t c d =>
      simp only [folded, parts, Node.binary.injEq] at hf hp
      obtain ⟨hleft, hright⟩ := parts?_append_inj hf.2.1 hp
      simp only [List.cons.injEq, Part.verbatim.injEq] at hright
      rw [hright.1, eq_of_folded?_eq a c hf.2.1 hleft, eq_of_folded?_eq b d hf.2.2 hright.2]
    | _ => cases hf
  | .header s a k b =>
    cases m with
    | header t c l d =>
      simp only [folded, parts, Node.header.injEq, List.cons_append, List.cons.injEq,
        Part.verbatim.injEq] at hf hp
      obtain ⟨hlabel, hrest⟩ := parts?_append_inj hf.2.1 hp.2
      simp only [List.cons.injEq] at hrest
      rw [hp.1, hf.2.2.1, eq_of_folded?_eq a c hf.2.1 hlabel,
        eq_of_folded?_eq b d hf.2.2.2 hrest.2]
    | _ => cases hf
  | .oStatement a b =>
    cases m with
    | oStatement c d =>
      simp only [folded, parts, Node.oStatement.injEq] at hf hp
      obtain ⟨hhead, hline⟩ := parts?_append_inj hf.1 hp
      rw [eq_of_folded?_eq a c hf.1 hhead, eq_of_folded?_eq b d hf.2 hline]
    | _ => cases hf
  | .block k a as b =>
    cases m with
    | block l c bs d =>
      simp only [folded, parts, Node.block.injEq, List.append_assoc] at hf hp
      obtain ⟨hhead, hrest⟩ := parts?_append_inj hf.2.1 hp
      obtain ⟨hbody, hclosing⟩ := partsOf_append_inj hf.2.2.1 hrest
      rw [hf.1, eq_of_folded?_eq a c hf.2.1 hhead, eq_of_foldedOf_eq as bs hf.2.2.1 hbody,
        eq_of_folded?_eq b d hf.2.2.2 hclosing]
    | _ => cases hf
  | .commandLine as =>
    cases m with
    | commandLine bs =>
      simp only [folded, parts, Node.commandLine.injEq] at hf hp
      rw [eq_of_foldedOf_eq as bs hf hp]
    | _ => cases hf
  | .program as =>
    cases m with
    | program bs =>
      simp only [folded, parts, Node.program.injEq] at hf hp
      rw [eq_of_foldedOf_eq as bs hf hp]
    | _ => cases hf

theorem eq_of_folded?_eq (a b : Option Node) (hf : folded? a = folded? b)
    (hp : parts? a = parts? b) : a = b := by
  match a, b with
  | none, none => rfl
  | none, some _ | some _, none => cases hf
  | some n, some m => rw [eq_of_folded_eq n m (Option.some.inj hf) hp]

theorem eq_of_foldedOf_eq (as bs : List (Option Node)) (hf : foldedOf as = foldedOf bs)
    (hp : partsOf as = partsOf bs) : as = bs := by
  match as, bs with
  | [], [] => rfl
  | [], _ :: _ | _ :: _, [] => cases hf
  | a :: as, b :: bs =>
    obtain ⟨hhead, htail⟩ := List.cons.inj hf
    obtain ⟨hfirst, hrest⟩ := parts?_append_inj hhead hp
    rw [eq_of_folded?_eq a b hhead hfirst, eq_of_foldedOf_eq as bs htail hrest]

end

end Node

/-- Trees that agree when folded are the same if one of them stands for the canonical form of the
other. -/
theorem Node.eq_of_spell {n m : Node} (hf : n.folded = m.folded)
    (h : Part.Spell n.parts (m.parts.flatMap Part.lowered)) : n = m := by
  have hparts := congrArg parts hf
  rw [parts_folded, parts_folded] at hparts
  exact eq_of_folded_eq n m hf (h.eq_of_folded_eq hparts)

end Gcode
