import Gcode.CommandLine.Directory
import Gcode.CommandLine.Execute
import Gcode.CommandLine.Options
import Gcode.CommandLine.Path
import Gcode.CommandLine.Request
import Gcode.CommandLine.Run
import Gcode.Diagnostic.Basic
import Gcode.Diagnostic.Problem
import Gcode.Format
import Gcode.Json.Basic
import Gcode.Json.Document
import Gcode.Json.Written
import Gcode.Layout.Expression
import Gcode.Layout.Page
import Gcode.Layout.Program
import Gcode.Main
import Gcode.Node.Basic
import Gcode.Node.Height
import Gcode.Node.Label
import Gcode.Node.Nesting
import Gcode.Node.Shown
import Gcode.Node.Spine
import Gcode.Node.Style
import Gcode.Parse.Basic
import Gcode.Parse.Expression
import Gcode.Parse.Loop
import Gcode.Parse.Session
import Gcode.Parse.Statement
import Gcode.Proofs.CommandLine.Directory
import Gcode.Proofs.CommandLine.Request
import Gcode.Proofs.CommandLine.Turns
import Gcode.Proofs.Json.Document
import Gcode.Proofs.Json.Written
import Gcode.Proofs.Layout.Folded
import Gcode.Proofs.Layout.Fragment
import Gcode.Proofs.Layout.Indented
import Gcode.Proofs.Layout.Ink
import Gcode.Proofs.Layout.Level
import Gcode.Proofs.Layout.Lines
import Gcode.Proofs.Layout.Page
import Gcode.Proofs.Layout.Reread
import Gcode.Proofs.Layout.RoundTrip
import Gcode.Proofs.Layout.Solid
import Gcode.Proofs.Layout.Total
import Gcode.Proofs.Layout.Typeset
import Gcode.Proofs.Node.Beneath
import Gcode.Proofs.Node.Damage
import Gcode.Proofs.Node.Folded
import Gcode.Proofs.Node.Fragment
import Gcode.Proofs.Node.Inside
import Gcode.Proofs.Node.Label
import Gcode.Proofs.Node.Lines
import Gcode.Proofs.Node.Operands
import Gcode.Proofs.Node.Part
import Gcode.Proofs.Node.Ranked
import Gcode.Proofs.Node.Standing
import Gcode.Proofs.Node.Way
import Gcode.Proofs.Parse.Account
import Gcode.Proofs.Parse.Block
import Gcode.Proofs.Parse.Climb
import Gcode.Proofs.Parse.Closure
import Gcode.Proofs.Parse.Coarser
import Gcode.Proofs.Parse.Conditional
import Gcode.Proofs.Parse.Continued
import Gcode.Proofs.Parse.ContinuedProgram
import Gcode.Proofs.Parse.Evaluate
import Gcode.Proofs.Parse.Evaluated
import Gcode.Proofs.Parse.Execute
import Gcode.Proofs.Parse.Executed
import Gcode.Proofs.Parse.Expression
import Gcode.Proofs.Parse.Folded
import Gcode.Proofs.Parse.FoldedProgram
import Gcode.Proofs.Parse.Frame
import Gcode.Proofs.Parse.Grown
import Gcode.Proofs.Parse.Height
import Gcode.Proofs.Parse.Loop
import Gcode.Proofs.Parse.Lossless
import Gcode.Proofs.Parse.Nested
import Gcode.Proofs.Parse.OWord
import Gcode.Proofs.Parse.Origin
import Gcode.Proofs.Parse.Precedence
import Gcode.Proofs.Parse.Reading
import Gcode.Proofs.Parse.Recovery
import Gcode.Proofs.Parse.Room
import Gcode.Proofs.Parse.RoomProgram
import Gcode.Proofs.Parse.Rounds
import Gcode.Proofs.Parse.Sound
import Gcode.Proofs.Parse.Span
import Gcode.Proofs.Parse.Statement
import Gcode.Proofs.Parse.Steps
import Gcode.Proofs.Parse.Told
import Gcode.Proofs.Parse.ToldProgram
import Gcode.Proofs.Parse.Unclosed
import Gcode.Proofs.Parse.Walks
import Gcode.Proofs.Parse.Written
import Gcode.Proofs.Parse.Yields
import Gcode.Proofs.Source.Compact
import Gcode.Proofs.Source.Lines
import Gcode.Proofs.Source.Spacing
import Gcode.Proofs.Text.Folded
import Gcode.Proofs.Text.Ink
import Gcode.Proofs.Text.Numeral
import Gcode.Proofs.Token.Blank
import Gcode.Proofs.Token.Bracket
import Gcode.Proofs.Token.Folded
import Gcode.Proofs.Token.Laid
import Gcode.Proofs.Token.Lexed
import Gcode.Proofs.Token.Munch
import Gcode.Proofs.Token.Passes
import Gcode.Proofs.Token.Placed
import Gcode.Proofs.Token.Shape
import Gcode.Source.Compact
import Gcode.Source.Cursor
import Gcode.Source.Early
import Gcode.Source.Line
import Gcode.Text.Basic
import Gcode.Text.CaseTable
import Gcode.Text.Casing
import Gcode.Text.CodePointSet
import Gcode.Text.Digit
import Gcode.Text.Integer
import Gcode.Text.Printable
import Gcode.Text.Quoted
import Gcode.Text.Utf8
import Gcode.Text.WhiteSpace
import Gcode.Token.Basic
import Gcode.Token.Early
import Gcode.Token.Keyword
import Gcode.Token.Lexer
import Gcode.Token.Scan
import Gcode.Token.Segment
