import Gcode.CommandLine.Options

/-!
# Requests

A command line asks for sources to be handled with certain settings. The sources stand together;
later ones are not recognized. A setting is left blank by two hyphens that are joined to its option;
that is refused only where the setting is asked for.

## Main definitions

* `Given` — a setting, which may be left blank.
* `Request` — the sources and the settings.
* `Cluster` — the options in one argument.
* `Request.ofArguments` — what a command line asks for.
-/

namespace Gcode.CommandLine

/-- A setting as a command line makes it. -/
inductive Given (α : Type)
  | value (a : α)
  /-- The option was given without a value. -/
  | blank
deriving DecidableEq, Repr

namespace Given

variable {α β : Type}

/-- Whether the setting was left blank. -/
def isBlank : Given α → Bool
  | .value _ => false
  | .blank => true

/-- The value, or the default of a setting that was left blank. -/
def getD (given : Given α) (default : α) : α :=
  match given with
  | .value a => a
  | .blank => default

/-- The setting with its value mapped. -/
def map (f : α → β) : Given α → Given β
  | .value a => .value (f a)
  | .blank => .blank

end Given

/-- The sources and the settings that a command line asks for. -/
structure Request where
  sources : List Text := []
  isText : Bool := false
  target : Given Text := .value "ngc"
  out : Text := []
  inPlace : Bool := false
  check : Bool := false
  strict : Bool := false
  indent : Given Int := .value 2
  maxIterations : Given (Option Int) := .value none
  maxDepth : Given Int := .value 64
  verbose : Bool := false
deriving DecidableEq, Repr

/-- Why a command line is not carried out. -/
inductive Stop
  /-- Help was asked for. -/
  | help
  | usage (error : UsageError)
  /-- The indentation was left blank. -/
  | blankIndent
deriving DecidableEq, Repr

/-- An option that was read, with its value if it takes one. -/
abbrev Choice := Opt × Text

namespace Request

/-- The value of an option by way of `read`. Two hyphens are no value and leave the setting
blank. -/
def given {α : Type} (value : Text) (read : Text → Except Stop α) : Except Stop (Given α) :=
  if value = "--" then .ok .blank else (read value).map .value

/-- The name of a target. -/
def target? (value : Text) : Except Stop Text :=
  if targets.contains value then .ok value else .error (.usage (.unknownTarget value))

/-- The integer value of an option. -/
def integer (opt : Opt) (value : Text) : Except Stop Int :=
  match Text.int? value with
  | some n => .ok n
  | none => .error (.usage (.notAnInteger opt value))

/-- The request with a choice made. -/
def apply (request : Request) (choice : Choice) : Except Stop Request :=
  let value := choice.2
  match choice.1 with
  | .help => .error .help
  | .string => .ok { request with isText := true }
  | .target => (given value target?).map fun g => { request with target := g }
  | .out => (given value .ok).map fun g => { request with out := g.getD [] }
  | .inPlace => .ok { request with inPlace := true }
  | .check => .ok { request with check := true }
  | .strict => .ok { request with strict := true }
  | .indent => (given value (integer .indent)).map fun g => { request with indent := g }
  | .maxIterations =>
    (given value (integer .maxIterations)).map fun g =>
      { request with maxIterations := g.map some }
  | .maxDepth => (given value (integer .maxDepth)).map fun g => { request with maxDepth := g }
  | .verbose => .ok { request with verbose := true }

/-- The request with choices made in order. -/
def applyAll (request : Request) (choices : List Choice) : Except Stop Request :=
  choices.foldlM apply request

/-- The names of the files that the request reads or writes. -/
def fileNames (request : Request) : List Text :=
  (if request.isText then [] else request.sources) ++
    (if request.out.isEmpty then [] else [request.out])

end Request

/-- What the options in one argument ask for: the choices made, and the option at its end that
still lacks a value. -/
structure Cluster where
  choices : List Choice
  open? : Option Opt := none

namespace Cluster

/-- An option at the end of an argument, which takes its value from the next one. -/
def final (opt : Opt) : Cluster :=
  if opt.takesValue then ⟨[], some opt⟩ else ⟨[(opt, [])], none⟩

/-- An option together with its value. -/
def valued (opt : Opt) (value : Text) : Cluster := ⟨[(opt, value)], none⟩

/-- The cluster with one more option in front. -/
def behind (opt : Opt) (cluster : Cluster) : Cluster :=
  { cluster with choices := (opt, []) :: cluster.choices }

/-- What is joined to the short option `opt`, which takes no value: further short options, the
first of which that takes a value takes all that follows it. -/
def joined (opt : Opt) : Text → Except UsageError Cluster
  | [] => .error (.unusedValue opt [])
  | c :: rest =>
    match spellings.lookup ['-', c] with
    | none => .error (.unusedValue opt (c :: rest))
    | some next =>
      if rest.isEmpty then .ok ((final next).behind opt)
      else if next.takesValue then .ok ((valued next rest).behind opt)
      else (joined next rest).map (behind opt)

/-- What an option with the value joined to it asks for. -/
def ofOption (opt : Opt) (spelling : Text) : Option Text → Except UsageError Cluster
  | none => .ok (final opt)
  | some value =>
    if opt.takesValue then .ok (valued opt value)
    else if "--".toList.isPrefixOf spelling then .error (.unusedValue opt value)
    else joined opt value

end Cluster

/-- Where the sources stand on a command line. -/
inductive Phase
  /-- None has been read. -/
  | before
  /-- The last item was one. -/
  | within
  /-- An option followed them. -/
  | behind
deriving DecidableEq, Repr

/-- The phase behind an option. -/
def Phase.afterOption : Phase → Phase
  | .before => .before
  | _ => .behind

/-- What the items of a command line ask for, and those that are not recognized. -/
def readItems (phase : Phase) (request : Request) (strangers : List Text) :
    List Item → Except Stop (Request × List Text)
  | [] => .ok (request, strangers)
  | .plain t :: rest =>
    if phase = .behind then readItems phase request (strangers ++ [t]) rest
    else readItems .within { request with sources := request.sources ++ [t] } strangers rest
  | .separator :: rest =>
    if phase = .behind || (phase = .before && rest.isEmpty) then
      readItems .behind request (strangers ++ [("--" : Text)]) rest
    else readItems .within request strangers rest
  | .stranger t :: rest => readItems phase.afterOption request (strangers ++ [t]) rest
  | .option _ opt spelling joined :: rest =>
    match Cluster.ofOption opt spelling joined with
    | .error e => .error (.usage e)
    | .ok cluster =>
      match cluster.open?, rest with
      | none, rest => do
        let request ← request.applyAll cluster.choices
        readItems phase.afterOption request strangers rest
      | some last, .plain value :: rest => do
        let request ← request.applyAll (cluster.choices ++ [(last, value)])
        readItems phase.afterOption request strangers rest
      | some last, _ => .error (.usage (.missingValue last))

/-- What a command line asks for. -/
def Request.ofArguments (arguments : List Text) : Except Stop Request := do
  let items ← (Item.ofArguments arguments).mapError .usage
  let (request, strangers) ← readItems .before {} [] items
  if request.sources.isEmpty then .error (.usage .missingSources)
  else if !strangers.isEmpty then .error (.usage (.unrecognized strangers))
  else if !request.out.isEmpty && request.sources.length > 1 then .error (.usage .outForSeveral)
  else
    match request.indent with
    | .blank => .error .blankIndent
    | .value n => if n < 0 then .error (.usage .negativeIndent) else .ok request

end Gcode.CommandLine
