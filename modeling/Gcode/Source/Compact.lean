import Gcode.Source.Line

/-!
# Compacting a program

Spaces and tabs mean nothing outside comments and are removed before a program is read. Lines
that hold nothing else are kept as they are, and so are all line breaks, so that every line keeps
its number.

A comment runs from a semicolon to the end of the line, or from an opening parenthesis to the
first closing one. An opening parenthesis with a closing one right behind it opens no comment.
-/

namespace Gcode

/-- What the characters of a line belong to. -/
inductive Region
  /-- Outside comments. -/
  | code
  /-- Behind an opening parenthesis. -/
  | parenthesized
  /-- Behind a semicolon. -/
  | remainder
deriving DecidableEq, Repr

namespace Region

/-- The region behind a character `c`, which `rest` follows on the line. -/
def next : Region → Char → Text → Region
  | .code, c, rest =>
    if c = ';' then .remainder
    else if c = '(' && rest.head? ≠ some ')' then .parenthesized
    else .code
  | .parenthesized, c, _ => if c = ')' then .code else .parenthesized
  | .remainder, _, _ => .remainder

/-- The characters that remain of a line from within a region on. -/
def compact : Region → Text → Text
  | _, [] => []
  | region, c :: rest =>
    let kept := compact (region.next c rest) rest
    if region = .code && Text.isBlank c then kept else c :: kept

end Region

/-- A line without the spaces and tabs that mean nothing. -/
def Line.compact (line : Line) : Line :=
  if Text.isBlankOnly line.content then line
  else { line with content := Region.compact .code line.content }

/-- A program without the spaces and tabs that mean nothing. -/
def compact (source : Text) : Text := (lines source).flatMap fun line => line.compact.text

example : compact "G1 X [1 + 2] ( a b ) ; c d\n \t\r( ) Y 1" =
    "G1X[1+2]( a b ); c d\n \t\r( )Y1" := by decide

end Gcode
