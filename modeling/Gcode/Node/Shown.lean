import Gcode.Node.Basic
import Gcode.Text.Quoted

/-!
# Nodes in messages

A node is shown in a message by the name of its class with all its fields in parentheses. Texts
are quoted, and sequences stand in parentheses with a comma behind a single element.
-/

namespace Gcode.Node

/-- A class with the given fields. -/
def shownAs (name : Text) (fields : List (Text × Text)) : Text :=
  name ++ "(" ++ Text.joined ", " (fields.map fun f => f.1 ++ "=" ++ f.2) ++ ")"

/-- Parts as a sequence. -/
def shownSequence : List Text → Text
  | [] => "()"
  | [part] => "(" ++ part ++ ",)"
  | parts => "(" ++ Text.joined ", " parts ++ ")"

/-- A truth value. -/
def shownBool (b : Bool) : Text := if b then "True" else "False"

mutual

/-- The fields of a node, each with its name. -/
def shownFields : Node → List (Text × Text)
  | .number text => [("text", Text.quoted text)]
  | .parameter text => [("text", Text.quoted text)]
  | .unary operator operand => [("operator", Text.quoted operator), ("operand", shown? operand)]
  | .binary operator left right =>
    [("operator", Text.quoted operator), ("left", shown? left), ("right", shown? right)]
  | .bracketed inner closed => [("inner", shown? inner), ("closed", shownBool closed)]
  | .word letter value => [("word", Text.quoted letter), ("value", shown? value)]
  | .call name argument => [("name", Text.quoted name), ("argument", shown? argument)]
  | .unknown text line => [("text", Text.quoted text), ("line", Text.ofInt line)]
  | .comment text => [("text", Text.quoted text)]
  | .endOfLine text => [("text", Text.quoted text)]
  | .header oWord label keyword condition =>
    [("o_word", Text.quoted oWord), ("label", shown? label), ("keyword", Text.quoted keyword),
      ("condition", shown? condition)]
  | .commandLine commands => [("commands", shownSequence (shownList commands))]
  | .oStatement head line => [("header", shown? head), ("commands", shown? line)]
  | .assignment target value => [("target", Text.quoted target), ("value", shown? value)]
  | .block keyword head body closing =>
    [("open_keyword", Text.quoted keyword), ("header", shown? head),
      ("body", shownSequence (shownList body)), ("end_header", shown? closing)]
  | .program statements => [("statements", shownSequence (shownList statements))]

/-- A node that may be missing. -/
def shown? : Option Node → Text
  | none => "None"
  | some node => shownAs node.className (shownFields node)

/-- The nodes of a list, each on its own. -/
def shownList : List (Option Node) → List Text
  | [] => []
  | node :: nodes => shown? node :: shownList nodes

end

/-- The node as a message shows it. -/
def shown (node : Node) : Text := shown? (some node)

end Gcode.Node
