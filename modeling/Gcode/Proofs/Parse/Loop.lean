import Gcode.Parse.Loop
import Gcode.Proofs.Node.Part
import Gcode.Proofs.Parse.Reading

/-!
# What a loop reads

A loop whose turns read items reads a series of items. It ends by the turn that ends it, or by a
guard, which is reported.

## Main definitions

* `Turn.Reads` — what a turn read is an item, or the end of the loop.
* `Turn.Holds` — a property of the item that a turn read, or of what the loop came to.
* `Reading.Ending` — how a loop ended.

## Main statements

* `Parse.turns_succ_eq_ok` — the three ways in which a loop may have begun.
* `Parse.loop_reads` — a loop whose turns succeed succeeds, and reads a series of items.
* `Parse.turns_holds` — what holds of the items of all turns holds of the items of a loop.
-/

namespace Gcode

open Reading (Series)

variable {ε α β : Type} (cut : Prop) (Item : α → List Token → List Token → Prop)
  (Done : β → List Token → List Token → Prop)

/-- The item of the turn, or the end of the loop, stands for the tokens that the turn took, unless
a guard spoke and text may not be cut off. -/
def Turn.Reads {ahead : List Token} : Turn α β ahead → Prop
  | .item p => (Guarded p.reports → cut) → Item p.value ahead p.rest
  | .done p => (Guarded p.reports → cut) → Done p.value ahead p.rest

/-- The property `I` holds of the item of the turn, or `D` of the result of the loop. -/
def Turn.Holds (I : α → Prop) (D : β → Prop) {ahead : List Token} : Turn α β ahead → Prop
  | .item p => I p.value
  | .done p => D p.value

/-- How a loop ended, and what its last turn stands for: a guard stands for no token. -/
inductive Reading.Ending : Option β → List Token → List Token → Prop
  | done {result : β} {ahead rest : List Token} : Done result ahead rest →
    Ending (some result) ahead rest
  | halted (ahead : List Token) : cut → Ending none ahead ahead

theorem Parsed.tryBehind_ok {ahead : List Token} (first : Parsed α ahead)
    {second : Except (Halt ε) (Parsed β first.rest)} {p : Parsed β first.rest}
    (h : second = .ok p) : first.tryBehind second = .ok (first.behind p) := by
  rw [h]
  rfl

theorem Parsed.tryBehind_eq_ok {ahead : List Token} {first : Parsed α ahead}
    {second : Except (Halt ε) (Parsed β first.rest)} {p : Parsed β ahead}
    (h : first.tryBehind second = .ok p) : ∃ q, second = .ok q ∧ p = first.behind q := by
  cases second with
  | error halt => cases h
  | ok q => exact ⟨q, rfl, (Except.ok.inj h).symm⟩

namespace Parse

variable {cut} {Item} {Done} (s : Setting) (place : Text) {start : List Token}
  {turn : (ahead : List Token) → ahead <:+ start → Except (Halt ε) (Turn α β ahead)}

/-! ## The first turn -/

section FirstTurn

variable {s} {place} {n : Nat} {ahead : List Token} {h : ahead <:+ start}

theorem turns_of_done {q : Parsed β ahead} (hq : turn ahead h = .ok (.done q)) :
    turns s place start turn (n + 1) ahead h = .ok (q.map fun result => ([], some result)) := by
  rw [turns, hq]

theorem turns_of_stalled {q : Parsed α ahead} (hq : turn ahead h = .ok (.item q))
    (hstall : q.rest.length = ahead.length) :
    turns s place start turn (n + 1) ahead h =
      .ok (q.behind (Parsed.reporting ([q.value], none)
        ⟨.stalled place (s.position ahead), (current s q.rest).line⟩ q.rest)) := by
  rw [turns, hq]
  dsimp only
  rw [if_pos hstall]

theorem turns_of_item {q : Parsed α ahead} (hq : turn ahead h = .ok (.item q))
    (hlt : q.rest.length < ahead.length) :
    turns s place start turn (n + 1) ahead h =
      q.tryBehind ((turns s place start turn n q.rest (q.suffix.trans h)).map fun more =>
        more.map fun result => (q.value :: result.1, result.2)) := by
  rw [turns, hq]
  dsimp only
  rw [if_neg (Nat.ne_of_lt hlt)]

/-- The first turn of a loop that came to something ended the loop, or read nothing, or read an
item behind which the loop went on. -/
theorem turns_succ_eq_ok {p : Parsed (List α × Option β) ahead}
    (hp : turns s place start turn (n + 1) ahead h = .ok p) :
    (∃ q, turn ahead h = .ok (.done q) ∧ p = q.map fun result => ([], some result)) ∨
      (∃ q, turn ahead h = .ok (.item q) ∧ q.rest.length = ahead.length ∧
        p = q.behind (Parsed.reporting ([q.value], none)
          ⟨.stalled place (s.position ahead), (current s q.rest).line⟩ q.rest)) ∨
      ∃ q more, turn ahead h = .ok (.item q) ∧ q.rest.length < ahead.length ∧
        turns s place start turn n q.rest (q.suffix.trans h) = .ok more ∧
        p = q.behind (more.map fun result => (q.value :: result.1, result.2)) := by
  cases hr : turn ahead h with
  | error halt =>
    rw [turns, hr] at hp
    cases hp
  | ok r =>
    cases r with
    | done q =>
      rw [turns_of_done hr] at hp
      exact .inl ⟨q, rfl, (Except.ok.inj hp).symm⟩
    | item q =>
      rcases Nat.eq_or_lt_of_le q.length_rest_le with hstall | hlt
      · rw [turns_of_stalled hr hstall] at hp
        exact .inr (.inl ⟨q, rfl, hstall, (Except.ok.inj hp).symm⟩)
      · rw [turns_of_item hr hlt] at hp
        obtain ⟨last, hlast, rfl⟩ := Parsed.tryBehind_eq_ok hp
        obtain ⟨more, hmore, rfl⟩ := map_eq_ok.mp hlast
        exact .inr (.inr ⟨q, more, rfl, hlt, hmore, rfl⟩)

end FirstTurn

/-- A loop whose turns cannot give up does not give up. -/
theorem loop_eq_steadyLoop (turn : (ahead : List Token) → Turn α β ahead) :
    (loop s place start fun ahead _ => (.ok (turn ahead) : Except (Halt Empty) _)) =
      .ok (steadyLoop s place start turn) := by
  unfold steadyLoop
  split
  case h_1 p hp => exact hp
  case h_2 halt _ => exact nomatch halt.cause

/-! ## Items -/

theorem turns_reads
    (hturn : ∀ ahead h, ∃ r, turn ahead h = .ok r ∧ r.Reads cut Item Done)
    (n : Nat) (ahead : List Token) (h : ahead <:+ start) :
    ∃ p, turns s place start turn n ahead h = .ok p ∧
      ((Guarded p.reports → cut) → ∃ behind, Series Item p.value.1 ahead behind ∧
        Reading.Ending cut Done p.value.2 behind p.rest) := by
  induction n generalizing ahead with
  | zero =>
    refine ⟨_, rfl, fun hc => ⟨ahead, .nil ahead, .halted ahead (hc ?_)⟩⟩
    exact ⟨_, List.mem_singleton_self _, rfl⟩
  | succ n ih =>
    obtain ⟨r, hr, hreads⟩ := hturn ahead h
    cases r with
    | done p => exact ⟨_, turns_of_done hr, fun hc => ⟨ahead, .nil ahead, .done (hreads hc)⟩⟩
    | item p =>
      rcases Nat.eq_or_lt_of_le p.length_rest_le with hstall | hlt
      · refine ⟨_, turns_of_stalled hr hstall, fun hc => ?_⟩
        dsimp only [Parsed.behind, Parsed.reporting] at hc ⊢
        rw [guarded_append, guarded_cons] at hc
        refine ⟨p.rest, .cons (hreads fun hg => hc (.inl hg)) (.nil _), .halted _ (hc ?_)⟩
        exact .inr (.inl rfl)
      · obtain ⟨q, hq, hseries⟩ := ih p.rest (p.suffix.trans h)
        rw [turns_of_item hr hlt, hq]
        refine ⟨_, rfl, fun hc => ?_⟩
        dsimp only [Parsed.behind, Parsed.map] at hc ⊢
        rw [guarded_append] at hc
        obtain ⟨behind, hitems, hend⟩ := hseries fun hg => hc (.inr hg)
        exact ⟨behind, .cons (hreads fun hg => hc (.inl hg)) hitems, hend⟩

/-- A loop whose turns succeed succeeds. Its items are a series, behind which it ended. -/
theorem loop_reads
    (hturn : ∀ ahead h, ∃ r, turn ahead h = .ok r ∧ r.Reads cut Item Done) :
    ∃ p, loop s place start turn = .ok p ∧
      ((Guarded p.reports → cut) → ∃ behind, Series Item p.value.1 start behind ∧
        Reading.Ending cut Done p.value.2 behind p.rest) :=
  turns_reads s place hturn _ start List.suffix_rfl

/-- The same of a loop whose turns cannot give up. -/
theorem steadyLoop_reads {turn : (ahead : List Token) → Turn α β ahead}
    (hturn : ∀ ahead, (turn ahead).Reads cut Item Done)
    (hc : Guarded (steadyLoop s place start turn).reports → cut) :
    ∃ behind, Series Item (steadyLoop s place start turn).value.1 start behind ∧
      Reading.Ending cut Done (steadyLoop s place start turn).value.2 behind
        (steadyLoop s place start turn).rest := by
  have hok : ∀ ahead (_ : ahead <:+ start), ∃ r,
      (Except.ok (turn ahead) : Except (Halt Empty) _) = .ok r ∧ r.Reads cut Item Done :=
    fun ahead _ => ⟨turn ahead, rfl, hturn ahead⟩
  obtain ⟨p, hp, hreads⟩ := loop_reads s place hok
  obtain rfl : steadyLoop s place start turn = p :=
    Except.ok.inj ((loop_eq_steadyLoop s place turn).symm.trans hp)
  exact hreads hc

/-! ## Properties of items -/

variable {I : α → Prop} {D : β → Prop}

/-- What holds of the items of all turns holds of the items of the loop. -/
theorem turns_holds (hturn : ∀ ahead h r, turn ahead h = .ok r → r.Holds I D) (n : Nat)
    (ahead : List Token) (h : ahead <:+ start) {p : Parsed (List α × Option β) ahead}
    (hp : turns s place start turn n ahead h = .ok p) :
    (∀ item ∈ p.value.1, I item) ∧ ∀ result ∈ p.value.2, D result := by
  induction n generalizing ahead with
  | zero =>
    cases hp
    exact ⟨by simp [Parsed.reporting], by simp [Parsed.reporting]⟩
  | succ n ih =>
    obtain ⟨q, hq, rfl⟩ | ⟨q, hq, -, rfl⟩ | ⟨q, more, hq, -, hmore, rfl⟩ := turns_succ_eq_ok hp
    · refine ⟨by simp [Parsed.map], fun result hresult => ?_⟩
      obtain rfl : q.value = result := Option.some.inj hresult
      exact hturn ahead h _ hq
    · have hitem : I q.value := hturn ahead h _ hq
      exact ⟨List.forall_mem_singleton.mpr hitem, by simp [Parsed.behind, Parsed.reporting]⟩
    · have hitem : I q.value := hturn ahead h _ hq
      obtain ⟨hitems, hresult⟩ := ih q.rest (q.suffix.trans h) hmore
      exact ⟨List.forall_mem_cons.mpr ⟨hitem, hitems⟩, hresult⟩

/-- What holds of the items of all turns holds of the items of a loop that cannot give up. -/
theorem steadyLoop_holds {turn : (ahead : List Token) → Turn α β ahead}
    (hturn : ∀ ahead, (turn ahead).Holds I D) :
    (∀ item ∈ (steadyLoop s place start turn).value.1, I item) ∧
      ∀ result ∈ (steadyLoop s place start turn).value.2, D result := by
  refine turns_holds s place (fun ahead h r hr => ?_) _ start List.suffix_rfl
    (loop_eq_steadyLoop s place turn)
  cases hr
  exact hturn ahead

end Parse

end Gcode
