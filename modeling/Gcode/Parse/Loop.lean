import Gcode.Parse.Basic

/-!
# Guarded loops

Lines of commands, blocks and programs are read in a loop that takes one item a turn. The loop is
guarded twice: it ends with a report after a turn that read nothing, and after the most turns
that are allowed.

## Main definitions

* `Halt` — a parse that gave up.
* `Turn` — what one turn of a loop came to.
* `loop` — the loop.
-/

namespace Gcode

/-- A parse that gave up: why, what was left then, how deep it was, and the reports so far. -/
structure Halt (ε : Type) where
  cause : ε
  rest : List Token
  depth : Nat
  reports : List Report

namespace Halt

variable {ε : Type}

/-- The halt as seen from further up, where more had been reported before. -/
def after (reports : List Report) (h : Halt ε) : Halt ε :=
  { h with reports := reports ++ h.reports }

end Halt

/-- The result of what is read behind `first` and may give up. -/
def Parsed.tryBehind {ε α β : Type} {ahead : List Token} (first : Parsed α ahead)
    (second : Except (Halt ε) (Parsed β first.rest)) : Except (Halt ε) (Parsed β ahead) :=
  match second with
  | .error h => .error (h.after first.reports)
  | .ok p => .ok (first.behind p)

/-- What one turn of a loop came to. -/
inductive Turn (α β : Type) (ahead : List Token)
  /-- An item, behind which the loop goes on. -/
  | item (parsed : Parsed α ahead)
  /-- The end of the loop, with its result. -/
  | done (parsed : Parsed β ahead)

namespace Parse

variable {ε α β : Type} (s : Setting) (place : Text)

/-- At most `n` turns of a loop that began with `start` ahead: the items, and the result if the
loop ended by a turn and not by a guard. -/
def turns (start : List Token)
    (turn : (ahead : List Token) → ahead <:+ start → Except (Halt ε) (Turn α β ahead)) :
    Nat → (ahead : List Token) → ahead <:+ start →
      Except (Halt ε) (Parsed (List α × Option β) ahead)
  | 0, ahead, _ =>
    .ok (Parsed.reporting ([], none) ⟨.overrun place s.maxRounds, (current s ahead).line⟩ ahead)
  | n + 1, ahead, h =>
    match turn ahead h with
    | .error halt => .error halt
    | .ok (.done p) => .ok (p.map fun result => ([], some result))
    | .ok (.item p) =>
      if p.rest.length = ahead.length then
        let stall : Report := ⟨.stalled place (s.position ahead), (current s p.rest).line⟩
        .ok (p.behind (Parsed.reporting ([p.value], none) stall p.rest))
      else
        p.tryBehind ((turns start turn n p.rest (p.suffix.trans h)).map fun q =>
          q.map fun result => (p.value :: result.1, result.2))

/-- A loop that takes turns, as many as the setting allows. -/
def loop (start : List Token)
    (turn : (ahead : List Token) → ahead <:+ start → Except (Halt ε) (Turn α β ahead)) :
    Except (Halt ε) (Parsed (List α × Option β) start) :=
  turns s place start turn s.maxRounds.toNat start List.suffix_rfl

/-- A loop whose turns cannot give up. -/
def steadyLoop (start : List Token) (turn : (ahead : List Token) → Turn α β ahead) :
    Parsed (List α × Option β) start :=
  match loop s place start fun ahead _ => (.ok (turn ahead) : Except (Halt Empty) _) with
  | .ok p => p
  | .error halt => nomatch halt.cause

end Parse

end Gcode
