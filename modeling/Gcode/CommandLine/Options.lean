import Gcode.Text.Integer
import Gcode.Text.Quoted

/-!
# Options of the command line

The options and their spellings, and how an argument is told from an option. A long option may be
shortened as long as only one begins like that, and its value may follow an equals sign. The value
of a short option may follow it directly, and so may further short options; an equals sign is
skipped behind the first of them only. What looks like a negative number, or holds a space, is an
argument, unless it begins like an option.

## Main definitions

* `CommandLine.Opt` — the options.
* `CommandLine.Item.ofText` — an argument of the command line classified.
-/

namespace Gcode.CommandLine

/-- An option. -/
inductive Opt
  | help
  | string
  | target
  | out
  | inPlace
  | check
  | strict
  | indent
  | maxIterations
  | maxDepth
  | verbose
deriving DecidableEq, Repr

/-- The spellings of the options. -/
def spellings : List (Text × Opt) :=
  [("-h", .help), ("--help", .help), ("-s", .string), ("--string", .string), ("-t", .target),
    ("--target", .target), ("-o", .out), ("--out", .out), ("-i", .inPlace),
    ("--in-place", .inPlace), ("--check", .check), ("--strict", .strict), ("--indent", .indent),
    ("--max-iterations", .maxIterations), ("--max-depth", .maxDepth), ("--verbose", .verbose)]

namespace Opt

/-- Whether the option takes a value. -/
def takesValue : Opt → Bool
  | .target | .out | .indent | .maxIterations | .maxDepth => true
  | _ => false

/-- The option in messages: all its spellings. -/
def name (opt : Opt) : Text :=
  Text.joined "/" ((spellings.filter fun entry => entry.2 = opt).map Prod.fst)

end Opt

/-- Why a command line is refused. -/
inductive UsageError
  | ambiguous (argument : Text) (matching : List Text)
  | unusedValue (opt : Opt) (value : Text)
  | missingValue (opt : Opt)
  | notAnInteger (opt : Opt) (value : Text)
  | unknownTarget (value : Text)
  | missingSources
  | unrecognized (arguments : List Text)
  | outForSeveral
  | negativeIndent
deriving DecidableEq, Repr

/-- The names of the targets, as they are offered. -/
def targets : List Text := ["json", "ngc"]

/-- A complaint about an option. -/
private def about (opt : Opt) (complaint : Text) : Text :=
  "argument " ++ opt.name ++ ": " ++ complaint

/-- The wording of the refusal. -/
def UsageError.message : UsageError → Text
  | .ambiguous argument matching =>
    "ambiguous option: " ++ argument ++ " could match " ++ Text.joined ", " matching
  | .unusedValue opt value => about opt ("ignored explicit argument " ++ Text.quoted value)
  | .missingValue opt => about opt "expected one argument"
  | .notAnInteger opt value => about opt ("invalid int value: " ++ Text.quoted value)
  | .unknownTarget value =>
    about .target ("invalid choice: " ++ Text.quoted value ++ " (choose from "
      ++ Text.joined ", " (targets.map Text.quoted) ++ ")")
  | .missingSources => "the following arguments are required: sources"
  | .unrecognized arguments => "unrecognized arguments: " ++ Text.joined " " arguments
  | .outForSeveral => "--out takes a single source"
  | .negativeIndent => "--indent must not be negative"

/-- What an argument of the command line is taken for. -/
inductive Item
  /-- A source, or the value of the option before it. -/
  | plain (text : Text)
  /-- Two hyphens, which end the options. -/
  | separator
  /-- An option by one of its spellings, and the value joined to it. -/
  | option (text : Text) (opt : Opt) (spelling : Text) (joined : Option Text)
  /-- What looks like an option and is none. -/
  | stranger (text : Text)
deriving DecidableEq, Repr

namespace Item

/-- The text before the first equals sign, and the value behind it. -/
def splitEquals (t : Text) : Text × Option Text :=
  let head := t.takeWhile (· ≠ '=')
  match t.drop head.length with
  | [] => (head, none)
  | _ :: value => (head, some value)

/-- The options that an argument may be short for, each with its spelling and joined value. -/
def candidates (t : Text) : List (Opt × Text × Option Text) :=
  if "--".toList.isPrefixOf t then
    let (start, joined) := splitEquals t
    (spellings.filter fun entry => start.isPrefixOf entry.1).map fun entry =>
      (entry.2, entry.1, joined)
  else
    spellings.filterMap fun entry =>
      if entry.1 = t.take 2 then some (entry.2, entry.1, some (t.drop 2))
      else if t.isPrefixOf entry.1 then some (entry.2, entry.1, none)
      else none

/-- Whether the text behind a hyphen is a decimal number, of which a point must have digits
behind it. A line feed may follow. -/
def isNumber (t : Text) : Bool :=
  let t := if t.getLast? = some '\n' then t.dropLast else t
  let isDigit (c : Char) : Bool := (Text.digitValue? c).isSome
  let whole := t.takeWhile isDigit
  match t.drop whole.length with
  | [] => !whole.isEmpty
  | '.' :: fraction => !fraction.isEmpty && fraction.all isDigit
  | _ => false

/-- An argument of the command line before the options end, classified. -/
def ofText (t : Text) : Except UsageError Item :=
  match t with
  | [] => .ok (.plain t)
  | c :: rest =>
    if c ≠ '-' then .ok (.plain t)
    else
      match spellings.lookup t with
      | some opt => .ok (.option t opt t none)
      | none =>
        if rest.isEmpty then .ok (.plain t)
        else
          let (start, joined) := splitEquals t
          match joined, spellings.lookup start with
          | some _, some opt => .ok (.option t opt start joined)
          | _, _ =>
            match candidates t with
            | [(opt, spelling, joined)] => .ok (.option t opt spelling joined)
            | _ :: _ :: _ =>
              .error (.ambiguous t ((candidates t).map fun candidate => candidate.2.1))
            | [] =>
              if isNumber rest || t.contains ' ' then .ok (.plain t) else .ok (.stranger t)

/-- The arguments of a command line, classified. Behind the separator, all are plain. -/
def ofArguments : List Text → Except UsageError (List Item)
  | [] => .ok []
  | t :: rest =>
    if t = "--" then .ok (.separator :: rest.map .plain)
    else do
      let item ← ofText t
      let items ← ofArguments rest
      return item :: items

end Item

end Gcode.CommandLine
