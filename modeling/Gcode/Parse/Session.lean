import Gcode.Parse.Statement

/-!
# Parser sessions

A session is a token list with a place in it, the depth of nesting there, and the reports so far.
Every parse function can be run in a session. A token list always ends in an end mark in a
session, and the place never lies behind the first one.

## Main definitions

* `Session.ofTokens` — the session at the start of a token list.
* `Session.run`, `Session.tryRun` — a parse function run in a session.
* `parse` — the program that a token list holds.
-/

namespace Gcode

/-- The limits on a parse. Without a limit of its own, a loop may take one turn more than there
are tokens. -/
structure Limits where
  maxRounds : Option Int := none
  maxDepth : Int := 64
deriving DecidableEq, Repr

/-- The token list with an end mark behind it, unless it ends in one. -/
def withEndMark (tokens : List Token) : List Token :=
  match tokens.getLast? with
  | none => [⟨.endOfFile, [], 1⟩]
  | some last =>
    if last.kind = .endOfFile then tokens else tokens ++ [⟨.endOfFile, [], last.line⟩]

/-- A parse in progress. -/
structure Session where
  /-- All tokens, with an end mark at the end. -/
  tokens : List Token
  limits : Limits
  position : Nat
  depth : Nat
  reports : List Report
deriving Repr

namespace Session

/-- The session at the start of a token list. -/
def ofTokens (tokens : List Token) (limits : Limits) : Session :=
  ⟨withEndMark tokens, limits, 0, 0, []⟩

/-- The tokens before the first end mark. -/
def readable (session : Session) : List Token :=
  session.tokens.takeWhile fun t => t.kind ≠ .endOfFile

/-- The first end mark. -/
def endMark (session : Session) : Token :=
  (session.tokens.find? fun t => t.kind = .endOfFile).getD ⟨.endOfFile, [], 1⟩

/-- What stays the same in a session. -/
def setting (session : Session) : Setting where
  total := session.readable.length
  endValue := session.endMark.value
  endLine := session.endMark.line
  maxRounds := session.limits.maxRounds.getD (session.tokens.length + 1)
  maxDepth := session.limits.maxDepth

/-- The tokens ahead. -/
def ahead (session : Session) : List Token := session.readable.drop session.position

/-- A parse function run from here: its value, and the session behind what it read. -/
def run {α : Type} (session : Session)
    (p : Setting → (depth : Nat) → (ahead : List Token) → Parsed α ahead) : α × Session :=
  let parsed := p session.setting session.depth session.ahead
  (parsed.value,
    { session with
      position := session.setting.position parsed.rest
      reports := session.reports ++ parsed.reports })

/-- A parse function that may give up run from here, and the session behind what it read. -/
def tryRun {α ε : Type} (session : Session)
    (p : Setting → (depth : Nat) → (ahead : List Token) → Except (Halt ε) (Parsed α ahead)) :
    Except ε α × Session :=
  match p session.setting session.depth session.ahead with
  | .ok parsed =>
    (.ok parsed.value,
      { session with
        position := session.setting.position parsed.rest
        reports := session.reports ++ parsed.reports })
  | .error halt =>
    (.error halt.cause,
      { session with
        position := session.setting.position halt.rest
        depth := halt.depth
        reports := session.reports ++ halt.reports })

/-- The token at hand. -/
def current (session : Session) : Token := Parse.current session.setting session.ahead

/-- There is no token at an index. -/
structure NoToken where
deriving DecidableEq, Repr

/-- The wording of the refusal. -/
def NoToken.message (_ : NoToken) : Text := "list index out of range"

/-- The token at an offset from the place; the last token if the offset leads behind it. An index
below 0 counts from the end. -/
def peek (session : Session) (offset : Int) : Except NoToken Token :=
  let count : Int := session.tokens.length
  let index := session.position + offset
  let place := if index < 0 then count + index else min index (count - 1)
  if place < 0 then .error ⟨⟩
  else
    match session.tokens[place.toNat]? with
    | some t => .ok t
    | none => .error ⟨⟩

end Session

/-- The program that a token list holds, and the reports about it. -/
def parse (tokens : List Token) (limits : Limits) : Except ParseError (Program × List Report) :=
  match (Session.ofTokens tokens limits).tryRun Parse.program with
  | (.ok program, session) => .ok (program, session.reports)
  | (.error e, _) => .error e

end Gcode
