import Gcode.CommandLine.Execute

/-!
# The program

The command line over the files of the machine. The files that a request names are read before
the run and those that the run changed are written after it, so that the run itself is
`CommandLine.execute`.
-/

namespace Gcode

/-- The folders that exist among those that the given paths lead through. -/
def existingFolders (paths : List Path) : IO (List Path) :=
  (paths.flatMap Path.folders).filterM fun folder => do
    try (← IO.FS.realPath (String.ofList folder.text)).isDir
    catch _ => return false

/-- The files that exist among those of the given paths, with their bytes. -/
def existingFiles (paths : List Path) : IO (List (Path × ByteArray)) :=
  paths.filterMapM fun path => do
    try return some (path, ← IO.FS.readBinFile (String.ofList path.text))
    catch _ => return none

/-- The names of the files that a command line is about. -/
def namesMeant (arguments : List Text) : List Text :=
  match CommandLine.Request.ofArguments arguments with
  | .ok request => request.fileNames
  | .error _ => []

/-- Runs the command line and returns the exit status. -/
def runProgram (arguments : List Text) : IO UInt32 := do
  let paths := (namesMeant arguments).map Path.ofText
  let folders ← existingFolders paths
  let files ← existingFiles (paths.filterMap (Directory.mk [] folders).resolve?)
  let before : Directory := ⟨files, folders⟩
  let (result, after) := CommandLine.execute arguments (Workspace.ofDirectory before)
  for (path, bytes) in after.directory.files do
    if (before.read? path).map ByteArray.data ≠ some bytes.data then
      IO.FS.writeBinFile (String.ofList path.text) bytes
  (← IO.getStdout).putStr (String.ofList after.output)
  let stderr ← IO.getStderr
  stderr.putStr (String.ofList after.errors)
  match result with
  | .ok status => return status.toUInt32
  | .error e =>
    stderr.putStr (String.ofList (e.message ++ ['\n']))
    return 1

end Gcode

/-- The entry point. -/
def main (arguments : List String) : IO UInt32 :=
  Gcode.runProgram (arguments.map String.toList)
