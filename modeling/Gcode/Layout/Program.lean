import Gcode.Layout.Expression
import Gcode.Layout.Page
import Gcode.Token.Keyword

/-!
# Writing programs

The canonical form of a program. Line breaks are written as they are; the statements of a block
are indented one level deeper than the lines that open and close it, except for the lines that
begin the branches of a conditional. Nothing is added that the tree lacks.

## Main definitions

* `Layout.statement`, `Layout.statements` — statements written on a page.
* `Program.written` — the text of a program.
-/

namespace Gcode

namespace Layout

/-- Whether the statement begins a branch of a conditional. -/
def beginsBranch : Option Node → Except Unwritable Bool
  | some (.oStatement (some (.header _ _ keyword _)) _) => .ok (Keyword.isBranch keyword)
  | some (.oStatement other _) => .error (.lacks (Node.className? other) "keyword")
  | _ => .ok false

/-- The level of a statement of a block that opens at the given level. -/
def bodyLevel (keyword : Text) (level : Nat) (node : Option Node) : Except Unwritable Nat :=
  if keyword = "IF" then
    (beginsBranch node).map fun branch => if branch then level else level + 1
  else .ok (level + 1)

/-- A statement of the given text written on a page. -/
def put (width level : Nat) (page : Page) (piece : Except Unwritable Text) :
    Except Unwritable Page :=
  piece.map (page.beginStatement width level).put

variable (width : Nat)

mutual

/-- A statement written on a page at a level. -/
def statement (level : Nat) (page : Page) : Node → Except Unwritable Page
  | .endOfLine text => .ok (page.put text)
  | .comment text => put width level page (.ok text)
  | .unknown text _ =>
    if Text.isBlankOnly text && page.atLineStart then .ok (page.put text)
    else put width level page (.ok text)
  | .assignment target value =>
    put width level page
      ((expression value).map fun text => Text.trimRight (target ++ " = " ++ text))
  | .commandLine nodes =>
    if nodes.isEmpty then .ok page else put width level page (commands nodes)
  | .oStatement head line => do
    let page ← put width level page (header head)
    let text ← commandsBehind line
    return if text.isEmpty then page else page.put text
  | .block keyword head body closing => do
    let page ← put width level page (header head)
    let page ← statements (bodyLevel keyword level) page body
    match closing with
    | none => return page
    | some _ => put width level page (header closing)
  | node => .error (.statement node.kindName)

/-- A statement that may be missing written on a page at a level. -/
def statement? (level : Nat) (page : Page) : Option Node → Except Unwritable Page
  | none => .error (.lacks (Node.className? none) "kind")
  | some node => statement level page node

/-- Statements written on a page in order, each at its level. -/
def statements (level : Option Node → Except Unwritable Nat) (page : Page) :
    List (Option Node) → Except Unwritable Page
  | [] => .ok page
  | node :: nodes => do
    let page ← statement? (← level node) page node
    statements level page nodes

end

end Layout

/-- The page that a program fills when each level of a block is indented by `width` spaces. -/
def Program.page (program : Program) (width : Int) : Except Layout.Unwritable Layout.Page :=
  Layout.statements width.toNat (fun _ => .ok 0) .blank program.statements

/-- The canonical form of a program. A width below 0 counts as 0. -/
def Program.written (program : Program) (width : Int) : Except Layout.Unwritable Text :=
  (program.page width).map Layout.Page.text

end Gcode
