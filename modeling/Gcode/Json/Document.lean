import Gcode.Diagnostic.Basic
import Gcode.Json.Basic
import Gcode.Node.Basic

/-!
# Trees and diagnostics as JSON

A node becomes an object that begins with the name of its kind and holds all fields in order. A
missing child becomes null.
-/

namespace Gcode

namespace Node

mutual

/-- The fields of a node, each with its name. -/
def fields : Node → List (Text × Json)
  | .number text => [("text", .string text)]
  | .parameter text => [("text", .string text)]
  | .unary operator operand => [("operator", .string operator), ("operand", document? operand)]
  | .binary operator left right =>
    [("operator", .string operator), ("left", document? left), ("right", document? right)]
  | .bracketed inner closed => [("inner", document? inner), ("closed", .bool closed)]
  | .word letter value => [("word", .string letter), ("value", document? value)]
  | .call name argument => [("name", .string name), ("argument", document? argument)]
  | .unknown text line => [("text", .string text), ("line", .number line)]
  | .comment text => [("text", .string text)]
  | .endOfLine text => [("text", .string text)]
  | .header oWord label keyword condition =>
    [("o_word", .string oWord), ("label", document? label), ("keyword", .string keyword),
      ("condition", document? condition)]
  | .commandLine commands => [("commands", .array (documents commands))]
  | .oStatement head line =>
    [("header", document? head), ("commands", document? line)]
  | .assignment target value => [("target", .string target), ("value", document? value)]
  | .block keyword head body closing =>
    [("open_keyword", .string keyword), ("header", document? head),
      ("body", .array (documents body)), ("end_header", document? closing)]
  | .program statements => [("statements", .array (documents statements))]

/-- A node that may be missing. -/
def document? : Option Node → Json
  | none => .null
  | some node => .object (("kind", .string node.kindName) :: fields node)

/-- The nodes of a list. -/
def documents : List (Option Node) → List Json
  | [] => []
  | node :: nodes => document? node :: documents nodes

end

/-- The node as a JSON value. -/
def document (node : Node) : Json := document? (some node)

end Node

/-- The diagnostic as a JSON value. -/
def Diagnostic.document (d : Diagnostic) : Json :=
  .object [("kind", .string d.kind.name), ("message", .string d.message), ("line", .number d.line)]

/-- A tree and diagnostics as a JSON value. -/
def Node.dump (node : Node) (diagnostics : List Diagnostic) : Json :=
  .object [("program", node.document), ("diagnostics", .array (diagnostics.map (·.document)))]

/-- A program and its diagnostics as a JSON value. -/
def Program.document (program : Program) (diagnostics : List Diagnostic) : Json :=
  program.node.dump diagnostics

end Gcode
