import Gcode.Text.Casing

/-!
# Paths

A path names a file by the folders that lead to it, from the root or from where the program runs.
Empty parts and single dots mean nothing.

## Main definitions

* `Path.ofText` — the path that a text stands for.
* `Path.ending` — the suffix of a file name, with its dot.
* `Path.isProgram` — whether the suffix is that of a program file.
-/

namespace Gcode

/-- The way to a file or a folder. -/
structure Path where
  fromRoot : Bool
  parts : List Text
deriving DecidableEq, Repr

namespace Path

/-- A text cut at each slash. -/
def cut : Text → List Text
  | [] => [[]]
  | c :: rest =>
    if c = '/' then [] :: cut rest
    else
      match cut rest with
      | [] => [[c]]
      | part :: parts => (c :: part) :: parts

/-- The path that a text stands for. -/
def ofText (t : Text) : Path where
  fromRoot := t.head? = some '/'
  parts := (cut t).filter fun part => !part.isEmpty && part ≠ "."

/-- The text of a path. -/
def text (path : Path) : Text :=
  (if path.fromRoot then "/" else "") ++ Text.joined "/" path.parts

/-- The folder that the path leads through last, and none if it has no parts. -/
def folder? (path : Path) : Option Path :=
  if path.parts.isEmpty then none else some { path with parts := path.parts.dropLast }

/-- All folders that the path leads through, with that it begins in. -/
def folders (path : Path) : List Path :=
  (List.range path.parts.length).map fun n => { path with parts := path.parts.take n }

/-- The last dot of a name and what follows it, if the dot is neither the first nor the last
character; else nothing. -/
def endingOf (name : Text) : Text :=
  let tail := (name.reverse.takeWhile (· ≠ '.')).reverse
  if tail.length + 1 < name.length && !tail.isEmpty then '.' :: tail else []

/-- The suffix of the file name, with its dot. -/
def ending (path : Path) : Text := endingOf (path.parts.getLast?.getD [])

/-- The suffixes of program files. -/
def programEndings : List Text := [".gcode", ".nc", ".ngc", ".tap", ".txt"]

/-- Whether the suffix, in any case, is that of a program file. -/
def isProgram (path : Path) : Bool := programEndings.contains (Text.lower path.ending)

example : (ofText "./a//b.NGC").isProgram = true := by decide

example : (ofText ".ngc").ending = [] := by decide

end Path

end Gcode
