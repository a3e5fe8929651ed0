import Gcode.Text.Basic

/-!
# Nodes

The syntax tree of a program. Expressions, parts of statements and statements are nodes of one
type, because a tree may be put together by hand with any kind of node in any place; the
functions on nodes say what they do with a kind that they have no use for. A child that is
missing, such as the operand of a dangling sign, is `none`.
-/

namespace Gcode

/-- A node of the syntax tree. -/
inductive Node
  /-- A numeral. -/
  | number (text : Text)
  /-- A parameter with its sign or its angle brackets. -/
  | parameter (text : Text)
  /-- A sign in front of an operand. -/
  | unary (operator : Text) (operand : Option Node)
  /-- An operator between two operands. -/
  | binary (operator : Text) (left right : Option Node)
  /-- An expression in brackets, of which the closing one may be missing. -/
  | bracketed (inner : Option Node) (closed : Bool)
  /-- A word and its value. -/
  | word (word : Text) (value : Option Node)
  /-- A function name and its argument. -/
  | call (name : Text) (argument : Option Node)
  /-- Text that has no place in the tree, and the line it begins on. -/
  | unknown (text : Text) (line : Int)
  /-- A comment with its marks. -/
  | comment (text : Text)
  /-- A line break. -/
  | endOfLine (text : Text)
  /-- The part of an o-word line that controls the flow: the o-word, the label, the keyword in
  upper case, which is empty for a bare o-word, and the condition. -/
  | header (oWord : Text) (label : Option Node) (keyword : Text) (condition : Option Node)
  /-- A line of commands. -/
  | commandLine (commands : List (Option Node))
  /-- An o-word line that opens no block: its header, and the line of commands behind it. -/
  | oStatement (header commands : Option Node)
  /-- An assignment to a parameter. -/
  | assignment (target : Text) (value : Option Node)
  /-- A block from the header that opens it to the one that closes it, which may be missing. -/
  | block (keyword : Text) (header : Option Node) (body : List (Option Node))
      (closing : Option Node)
  /-- A whole program. -/
  | program (statements : List (Option Node))
deriving Inhabited

namespace Node

/-- The name of a node's kind. -/
def kindName : Node → Text
  | .number _ => "number"
  | .parameter _ => "parameter"
  | .unary _ _ => "unary"
  | .binary _ _ _ => "binary"
  | .bracketed _ _ => "bracketed"
  | .word _ _ => "word"
  | .call _ _ => "function_call"
  | .unknown _ _ => "unknown"
  | .comment _ => "comment"
  | .endOfLine _ => "eol"
  | .header _ _ _ _ => "header"
  | .commandLine _ => "command_line"
  | .oStatement _ _ => "o_statement"
  | .assignment _ _ => "assignment"
  | .block _ _ _ _ => "flow_block"
  | .program _ => "program"

/-- The name of a node's class in messages. -/
def className : Node → Text
  | .number _ => "NumberLiteral"
  | .parameter _ => "ParameterLiteral"
  | .unary _ _ => "UnaryExpression"
  | .binary _ _ _ => "BinaryExpression"
  | .bracketed _ _ => "BracketedExpression"
  | .word _ _ => "WordExpression"
  | .call _ _ => "FunctionCall"
  | .unknown _ _ => "UnknownToken"
  | .comment _ => "Comment"
  | .endOfLine _ => "EndOfLine"
  | .header _ _ _ _ => "Header"
  | .commandLine _ => "CommandLine"
  | .oStatement _ _ => "OStatement"
  | .assignment _ _ => "Assignment"
  | .block _ _ _ _ => "FlowBlock"
  | .program _ => "Program"

/-- The name of the class of a node that may be missing. -/
def className? : Option Node → Text
  | none => "NoneType"
  | some node => className node

/-- The children of an expression; other nodes have none. -/
def operands : Node → List (Option Node)
  | .unary _ operand => [operand]
  | .binary _ left right => [left, right]
  | .bracketed inner _ => [inner]
  | .word _ value => [value]
  | .call _ argument => [argument]
  | _ => []

end Node

/-- A program: its statements in order. -/
structure Program where
  statements : List (Option Node)

namespace Program

/-- The program as a node. -/
def node (program : Program) : Node := .program program.statements

/-- The program that a node is. -/
def ofNode? : Node → Option Program
  | .program statements => some ⟨statements⟩
  | _ => none

end Program

end Gcode
