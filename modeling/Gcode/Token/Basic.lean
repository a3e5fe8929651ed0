import Gcode.Text.Quoted

/-!
# Tokens

A token is a stretch of program text with the class that it was read as and the line on which it
begins. Token lists may come from elsewhere than a program text, so a class of any name is
admitted.
-/

namespace Gcode

/-- The class of a token. -/
inductive TokenKind
  | number
  | parameter
  | word
  | function
  | operator
  | comparison
  | logical
  | openBracket
  | closeBracket
  | assign
  | flow
  | comment
  | endOfLine
  | unknown
  | endOfFile
  /-- A class that no program text gives rise to. -/
  | foreign (name : Text)
deriving DecidableEq, Repr

namespace TokenKind

/-- The name of a class in messages and token lists. -/
def name : TokenKind → Text
  | .number => "NUMBER"
  | .parameter => "PARAMETER"
  | .word => "WORD"
  | .function => "FUNCTION"
  | .operator => "OPERATOR"
  | .comparison => "COMPARISON"
  | .logical => "LOGICAL"
  | .openBracket => "LBRACK"
  | .closeBracket => "RBRACK"
  | .assign => "ASSIGN"
  | .flow => "FLOW"
  | .comment => "COMMENT"
  | .endOfLine => "EOL"
  | .unknown => "UNKNOWN"
  | .endOfFile => "EOF"
  | .foreign name => name

/-- The classes that program text gives rise to. -/
def native : List TokenKind :=
  [.number, .parameter, .word, .function, .operator, .comparison, .logical, .openBracket,
    .closeBracket, .assign, .flow, .comment, .endOfLine, .unknown, .endOfFile]

/-- The class of the given name. -/
def ofName (name : Text) : TokenKind :=
  (native.find? fun kind => kind.name = name).getD (.foreign name)

end TokenKind

/-- A stretch of program text, the class it was read as, and the line it begins on. -/
structure Token where
  kind : TokenKind
  value : Text
  line : Int
deriving DecidableEq, Repr

namespace Token

/-- The token as it is shown to a reader: its class and its quoted text. -/
def shown (token : Token) : Text :=
  "Token(" ++ token.kind.name ++ ", " ++ Text.quoted token.value ++ ")"

end Token

end Gcode
