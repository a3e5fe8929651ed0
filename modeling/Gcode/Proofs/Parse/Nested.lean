import Gcode.Proofs.Node.Way
import Gcode.Proofs.Parse.Height
import Gcode.Proofs.Parse.Steps
import Gcode.Proofs.Parse.Yields

/-!
# What the limit on nesting limits

A way from the root of a program to a leaf that never turns aside meets no more levels of nesting
than are allowed. But the level of an operator is not counted while its right operand is read, nor
that of an operator beyond the limit at all, nor that of a block while its first line is read. So
with each turn aside a way may meet one more.

## Main definitions

* `Parse.Capped` — an expression with room for all ways through it.

## Main statements

* `Parse.value_capped` — there is room for all ways through an expression that is read.
* `Parse.Grown.within` — the same of a statement.
* `readProgram_nested` — which ways through a program the limit on nesting limits.
-/

namespace Gcode

namespace Parse

open Node (height OfOperands Within)

variable (s : Setting)

/-- An expression with room for all ways through it. -/
structure Capped (room : Nat) (n : Option Node) : Prop where
  ofOperands : OfOperands n
  within : Within room n

namespace Capped

variable {room room' : Nat}

theorem mono {n : Option Node} (h : Capped room n) (hle : room ≤ room') : Capped room' n :=
  ⟨h.ofOperands, h.within.mono hle⟩

theorem missing (room : Nat) : Capped room none := ⟨.missing, .missing room⟩

theorem leaf {n : Node} (hchildren : n.children = []) (hoperands : n.operands = [])
    (hlevel : n.level = 0) (hstraight : n.straight = n.children) (haside : n.aside = []) :
    Capped room (some n) := by
  refine ⟨.leaf hchildren hoperands, .plain hlevel hstraight haside ?_⟩
  rw [hchildren]
  exact List.forall_mem_nil _

variable {child : Option Node}

theorem unary (sign : Text) (h : Capped room child) :
    Capped (room + 1) (some (.unary sign child)) :=
  ⟨.around rfl rfl h.ofOperands, h.within.around rfl rfl⟩

theorem bracketed (closed : Bool) (h : Capped room child) :
    Capped (room + 1) (some (.bracketed child closed)) :=
  ⟨.around rfl rfl h.ofOperands, h.within.around rfl rfl⟩

theorem call (name : Text) (h : Capped room child) : Capped room (some (.call name child)) :=
  ⟨.around rfl rfl h.ofOperands, h.within.around rfl rfl⟩

theorem word (letter : Text) (h : Capped room child) : Capped room (some (.word letter child)) :=
  ⟨.around rfl rfl h.ofOperands, h.within.around rfl rfl⟩

theorem withSigns {operand : Option Node} (h : Capped room operand) (signs : List Text) :
    Capped (room + signs.length) (Parse.withSigns signs operand) := by
  induction signs with
  | nil => exact h
  | cons sign signs ih => exact .unary sign ih

/-- An operator within the limit: on its left there is nothing higher than the room it leaves. -/
theorem binary {operator : Text} {left right : Option Node} (hleft : OfOperands left)
    (hle : height left ≤ room) (hright : Capped (room + 1) right) :
    Capped (room + 1) (some (.binary operator left right)) :=
  ⟨.binary operator hleft hright.ofOperands, .binary (hleft.within hle) hright.within⟩

theorem cutOff {operator text : Text} {line : Int} {left : Option Node} (h : Capped room left) :
    Capped room (some (.binary operator left (some (.unknown text line)))) :=
  ⟨.binary operator h.ofOperands (.leaf rfl rfl), h.within.cutOff⟩

end Capped

/-! ## Expressions -/

mutual

/-- There is room for all ways through an expression. -/
theorem value_capped (depth : Nat) (ahead : List Token) :
    Capped (s.room depth) (value s depth ahead).value := by
  rw [value]
  exact chain_capped depth 0 (operand s depth ahead).rest (operand_capped depth ahead)
termination_by (ahead.length, 4)
decreasing_by
  · exact Prod.Lex.right _ (by omega)
  · exact Prod.Lex.right' _ (Parsed.length_rest_le _) (by omega)

theorem chain_capped (depth : Nat) {left : Option Node} (least : Int) (ahead : List Token)
    (hl : Capped (s.room depth) left) :
    Capped (s.room depth) (chain s depth left (height left) least ahead).value := by
  match ahead with
  | [] =>
    rw [chain]
    exact hl
  | t :: rest =>
    rw [chain]
    split
    · exact link_capped depth t least rest hl
    · exact hl
termination_by (ahead.length, 3)
decreasing_by exact Prod.Lex.left _ _ (by simp)

theorem link_capped (depth : Nat) (t : Token) {left : Option Node} (least : Int)
    (ahead : List Token) (hl : Capped (s.room depth) left) :
    Capped (s.room depth) (link s depth t left (height left) least ahead).value := by
  rw [link]
  by_cases hd : s.maxDepth ≤ depth + height left
  · rw [if_pos hd]
    exact hl.cutOff
  · rw [if_neg hd]
    have hfirst := operand_capped depth ahead
    have hright := tighten_capped depth (Keyword.precedence t.value) (operand s depth ahead).rest
      hfirst
    obtain ⟨room, hroom⟩ : ∃ room, s.room depth = room + 1 :=
      ⟨s.room depth - 1, by unfold Setting.room; omega⟩
    have hle : height left ≤ room := by
      unfold Setting.room at hroom
      omega
    dsimp only
    generalize hr : tighten s depth (operand s depth ahead).value (Keyword.precedence t.value)
      (operand s depth ahead).rest = right at hright
    have hroot := Node.height_binary t.value left right.value
    have hbinary : Capped (s.room depth) (some (.binary t.value left right.value)) := by
      rw [hroom] at hright ⊢
      exact .binary hl.ofOperands hle hright
    have key := chain_capped depth least right.rest hbinary
    rw [hroot] at key
    exact key
termination_by (ahead.length, 5)
decreasing_by
  · exact Prod.Lex.right _ (by omega)
  · exact Prod.Lex.right' _ (Parsed.length_rest_le _) (by omega)
  · refine Prod.Lex.right' _ ?_ (by omega)
    exact Nat.le_trans (Parsed.length_rest_le _) (Parsed.length_rest_le _)

theorem tighten_capped (depth : Nat) {right : Option Node} (bound : Int) (ahead : List Token)
    (hr : Capped (s.room depth) right) :
    Capped (s.room depth) (tighten s depth right bound ahead).value := by
  match ahead with
  | [] =>
    rw [tighten]
    exact hr
  | t :: rest =>
    rw [tighten]
    split
    · have htighter := link_capped depth t (Keyword.precedence t.value) rest hr
      exact tighten_capped depth bound (link s depth t right (height right)
        (Keyword.precedence t.value) rest).rest htighter
    · exact hr
termination_by (ahead.length, 3)
decreasing_by
  · exact Prod.Lex.left _ _ (by simp)
  · refine Prod.Lex.left _ _ ?_
    exact Nat.lt_succ_of_le (Parsed.length_rest_le _)

theorem operand_capped (depth : Nat) (ahead : List Token) :
    Capped (s.room depth) (operand s depth ahead).value := by
  rw [operand]
  dsimp only
  split
  · have htext : Capped 0 (some (cutOff s ((signs ahead).value.drop (s.room depth)).flatten
        (signs ahead).rest).value) := .leaf rfl rfl rfl rfl rfl
    refine (htext.withSigns ((signs ahead).value.take (s.room depth))).mono ?_
    rw [Nat.zero_add, List.length_take]
    exact Nat.min_le_left _ _
  case isFalse hroom =>
    have hprimary := primary_capped (depth + (signs ahead).value.length) (signs ahead).rest
    refine (hprimary.withSigns (signs ahead).value).mono ?_
    unfold Setting.room
    omega
termination_by (ahead.length, 2)
decreasing_by exact Prod.Lex.right' _ (Parsed.length_rest_le _) (by omega)

theorem primary_capped (depth : Nat) (ahead : List Token) :
    Capped (s.room depth) (primary s depth ahead).value := by
  match ahead with
  | [] =>
    rw [primary]
    exact .missing _
  | t :: rest =>
    unfold primary
    split
    case h_1 => exact .leaf rfl rfl rfl rfl rfl
    case h_2 => exact .leaf rfl rfl rfl rfl rfl
    case h_3 => exact opened_capped depth t rest
    case h_4 =>
      cases hr : rest with
      | nil => exact .call t.value (.missing _)
      | cons u more =>
        dsimp only
        split
        · exact .call t.value (opened_capped depth u more)
        · exact .call t.value (.missing _)
    case h_5 => exact .word t.value (.missing _)
    case h_6 => exact .missing _
termination_by (ahead.length, 1)
decreasing_by
  · exact Prod.Lex.right _ (by omega)
  · exact Prod.Lex.left _ _ (by simp)

theorem opened_capped (depth : Nat) (t : Token) (rest : List Token) :
    Capped (s.room depth) (some (opened s depth t rest).value) := by
  rw [opened]
  split
  · exact .leaf rfl rfl rfl rfl rfl
  · rw [enclosed]
    refine ((value_capped (depth + 1) rest).bracketed
      (expect s .closeBracket (value s (depth + 1) rest).rest).value.isSome).mono ?_
    unfold Setting.room
    omega
termination_by (rest.length + 1, 0)
decreasing_by exact Prod.Lex.left _ _ (by simp)

end

/-- There is room for all ways through the expressions and commands that are read. -/
theorem elements_capped : Elements s fun depth => Capped (s.room depth) := by
  have hbracket : ∀ depth ahead, Capped (s.room depth) (optionalBracket s depth ahead).value :=
    fun depth => optionalBracket_holds s (.missing _) (opened_capped s depth)
  refine
    { missing := fun _ => .missing _
      value := value_capped s
      bracket := hbracket
      word := fun depth ahead => ?_
      call := fun depth ahead => .call _ (hbracket depth (advance s ahead).rest) }
  unfold wordWithValue
  dsimp only [Parsed.behind, Parsed.map]
  split
  · exact .word _ (value_capped s depth (advance s ahead).rest)
  · exact .word _ (.missing _)

/-! ## Statements -/

variable {s}

theorem Item.within {depth : Nat} {n : Node}
    (h : Item (fun depth => Capped (s.room depth)) depth n) :
    Within (s.room depth) (some n) := by
  cases h with
  | comment | unknown => exact .plain rfl rfl rfl (by simp [Node.children, Node.operands])
  | expression h => exact h.within

theorem Headed.within {depth : Nat} {n : Node}
    (h : Headed (fun depth => Capped (s.room depth)) depth n) :
    Within (s.room depth) (some n) := by
  cases h with
  | header hl hc =>
    exact .plain rfl rfl rfl (by simpa [Node.children] using ⟨hl.within, hc.within⟩)

/-- There is room for all ways through a statement. A block takes the room for its level from the
statements in it and from the line that closes it, but not from its first line. -/
theorem Grown.within {depth : Nat} {n : Node}
    (h : Grown s (fun depth => Capped (s.room depth)) depth n) :
    Within (s.room depth) (some n) := by
  have hitems : ∀ {depth : Nat} {nodes : List Node},
      (∀ n ∈ nodes, Item (fun depth => Capped (s.room depth)) depth n) →
      Within (s.room depth) (some (.commandLine (nodes.map some))) := by
    intro depth nodes hnodes
    refine .plain rfl rfl rfl fun c hc => ?_
    obtain ⟨n, hn, rfl⟩ := List.mem_map.mp hc
    exact (hnodes n hn).within
  induction h with
  | lineBreak | comment | unknown =>
    exact .plain rfl rfl rfl (by simp [Node.children, Node.operands])
  | assignment h => exact .plain rfl rfl rfl (by simpa [Node.children] using h.within)
  | commands h => exact hitems h
  | flat hh hc => exact .plain rfl rfl rfl (by simpa [Node.children] using ⟨hh.within, hitems hc⟩)
  | @block depth _ _ _ _ _ _ _ hd hclose hh hbody hopen hend ih =>
    have hroom : s.room depth = s.room (depth + 1) + 1 := by
      unfold Setting.room
      omega
    refine .node (by rw [hroom]; exact Nat.le_add_left 1 _) (fun c hc room heq => ?_) ?_
    · obtain rfl : s.room (depth + 1) = room := Nat.add_right_cancel (hroom.symm.trans heq)
      rcases List.mem_cons.mp hc with rfl | hc
      · intro root hroot
        exact (hend root hroot).1.within root rfl
      · obtain ⟨n, hn, rfl⟩ := List.mem_map.mp hc
        exact ih n hn
    · exact List.forall_mem_singleton.mpr hh.within

end Parse

/-- A parse of any tokens succeeds. No way through its program meets more levels of nesting than
the limit, and one more for each turn aside. -/
theorem parse_nested (tokens : List Token) (limits : Limits) :
    ∃ program reports, parse tokens limits = .ok (program, reports) ∧
      Node.Within limits.maxDepth.toNat (some program.node) := by
  obtain ⟨p, hp, hparse⟩ := exists_program_eq tokens limits
  obtain ⟨nodes, hvalue, hgrown⟩ := Parse.program_grown (Parse.elements_capped _) 0 _ hp
  refine ⟨p.value, p.reports, hparse, .plain rfl rfl rfl fun c hc => ?_⟩
  have hmem : c ∈ nodes.map some := hvalue ▸ hc
  obtain ⟨n, hn, rfl⟩ := List.mem_map.mp hmem
  have hroom : (Session.ofTokens tokens limits).setting.room 0 = limits.maxDepth.toNat := by
    show (limits.maxDepth - (0 : Nat)).toNat = limits.maxDepth.toNat
    omega
  exact hroom ▸ (hgrown n hn).within

/-- Every program text can be read. A way through the program meets at most as many levels of
nesting as are allowed, and one more for each turn aside; so no way meets more than are allowed if
and only if none does that turns aside. -/
theorem readProgram_nested (source : Text) (limits : Limits) :
    ∃ r, readProgram source limits = .ok r ∧
      (∀ nested turns, Node.Way r.program.node nested turns →
        (nested : Int) ≤ max limits.maxDepth 0 + turns) ∧
      ((∀ nested turns, Node.Way r.program.node nested turns →
          (nested : Int) ≤ max limits.maxDepth 0) ↔
        ∀ nested turns, 0 < turns → Node.Way r.program.node nested turns →
          (nested : Int) ≤ max limits.maxDepth 0) := by
  obtain ⟨ts, stop, lexer, hrun, -⟩ := tokens_ofSource source
  obtain ⟨program, reports, hparse, hwithin⟩ := parse_nested (ts ++ [stop]) limits
  have hread : readProgram source limits =
      .ok ⟨program, (ts ++ [stop]).length, lexer.reports, reports⟩ := by
    unfold readProgram
    rw [hrun]
    dsimp only
    rw [hparse]
  have hle : ∀ nested turns, Node.Way program.node nested turns →
      (nested : Int) ≤ max limits.maxDepth 0 + turns := by
    intro nested turns hway
    have hle := hwithin _ rfl nested turns hway
    omega
  refine ⟨_, hread, hle, fun h nested turns _ => h nested turns, fun h nested turns hway => ?_⟩
  rcases Nat.eq_zero_or_pos turns with rfl | hturns
  · simpa using hle nested 0 hway
  · exact h nested turns hturns hway

/-! ## Operators that are served first -/

namespace Parse

/-- A value that is known is assigned to a parameter. -/
theorem Steps.assigned {s : Setting} {t u : Token} (ht : t.kind = .parameter)
    (hu : u.kind = .assign) {ahead rest : List Token} {n : Option Node} {rs : List Report}
    (hvalue : (value s 0 ahead).Yields n rest rs) {nodes : List Node} {reports : List Report}
    (h : Steps s rest nodes reports) :
    Steps s (t :: u :: ahead) (.assignment t.value n :: nodes) (rs ++ reports) := by
  obtain ⟨hsuffix, hvalue⟩ := hvalue.exists_eq
  have hstart : startsAssignment s (t :: u :: ahead) = true := by
    simp [startsAssignment, current, ht, hu]
  have hp : statement s 0 (t :: u :: ahead) = .ok (Parse.assignment s 0 (t :: u :: ahead)) := by
    simp [statement, ht, hstart]
  have hassignment : Parse.assignment s 0 (t :: u :: ahead) =
      ⟨.assignment t.value n, rest, rs, hsuffix.trans ⟨[t, u], rfl⟩⟩ := by
    rw [Parse.assignment]
    dsimp only [advance, List.tail_cons]
    rw [expect_cons_of_eq s hu]
    dsimp only [advance, List.tail_cons, Parsed.map, Parsed.behind]
    rw [hvalue]
    rfl
  rw [hassignment] at hp
  refine .cons (by simp [ht]) hp ?_ h
  have hle := hsuffix.length_le
  simp only [List.length_cons]
  omega

/-- Of operators that bind tighter and tighter, each stands on the right of the one before it. None
of them is beyond the limit on nesting, since nothing is high on their left. -/
theorem value_power {s : Setting} {depth : Nat} (hs : depth + 1 < s.maxDepth) :
    (value s depth [⟨.number, "1", 1⟩, ⟨.operator, "+", 1⟩, ⟨.number, "2", 1⟩,
      ⟨.operator, "*", 1⟩, ⟨.number, "3", 1⟩, ⟨.operator, "**", 1⟩, ⟨.number, "4", 1⟩]).Yields
      (some (.binary "+" (some (.number "1")) (some (.binary "*" (some (.number "2"))
        (some (.binary "**" (some (.number "3")) (some (.number "4")))))))) [] [] := by
  have hwithin : ∀ text,
      ((depth + Node.height (some (.number text)) : Nat) : Int) < s.maxDepth := by
    intro text
    rw [Node.height_leaf rfl]
    omega
  have hdone : ∀ (n : Option Node) (size : Nat) (least : Int),
      (chain s depth n size least []).Yields n [] [] := fun _ size _ =>
    chain_done (fun _ h => by cases h) size
  have hend : ∀ (n : Option Node) (bound : Int), (tighten s depth n bound []).Yields n [] [] :=
    fun _ _ => tighten_done fun _ h => by cases h
  have hpower : (link s depth ⟨.operator, "**", 1⟩ (some (.number "3"))
      (Node.height (some (.number "3"))) (Keyword.precedence "**") [⟨.number, "4", 1⟩]).Yields
      (some (.binary "**" (some (.number "3")) (some (.number "4")))) [] [] :=
    link_within (hwithin "3") (operand_number rfl []) (hend _ _) (hdone _ _ _)
  have hproduct : (link s depth ⟨.operator, "*", 1⟩ (some (.number "2"))
      (Node.height (some (.number "2"))) (Keyword.precedence "*") [⟨.number, "3", 1⟩,
        ⟨.operator, "**", 1⟩, ⟨.number, "4", 1⟩]).Yields (some (.binary "*" (some (.number "2"))
        (some (.binary "**" (some (.number "3")) (some (.number "4")))))) [] [] :=
    link_within (hwithin "2") (operand_number (t := ⟨.number, "3", 1⟩) rfl _)
      (tighten_link (by decide) hpower (hend _ _)) (hdone _ _ _)
  have hsum : (link s depth ⟨.operator, "+", 1⟩ (some (.number "1"))
      (Node.height (some (.number "1"))) 0 [⟨.number, "2", 1⟩, ⟨.operator, "*", 1⟩,
        ⟨.number, "3", 1⟩, ⟨.operator, "**", 1⟩, ⟨.number, "4", 1⟩]).Yields
      (some (.binary "+" (some (.number "1")) (some (.binary "*" (some (.number "2"))
        (some (.binary "**" (some (.number "3")) (some (.number "4")))))))) [] [] :=
    link_within (hwithin "1") (operand_number (t := ⟨.number, "2", 1⟩) rfl _)
      (tighten_link (by decide) hproduct (hend _ _)) (hdone _ _ _)
  exact value_yields (operand_number rfl _) (chain_link (by decide) hsum)

end Parse

/-- Three operators nest although only two levels of nesting are allowed. -/
theorem readProgram_nested_lt :
    ∃ r nested turns, readProgram "#1=1+2*3**4" ⟨none, 2⟩ = .ok r ∧
      Node.Way r.program.node nested turns ∧ 2 < nested := by
  obtain ⟨run⟩ := Reading.nonempty_run "#1=1+2*3**4" ⟨none, 2⟩
  have htokens : (Lexer.ofSource "#1=1+2*3**4").run.toOption.map Prod.fst =
      some ([⟨.parameter, "#1", 1⟩, ⟨.assign, "=", 1⟩, ⟨.number, "1", 1⟩, ⟨.operator, "+", 1⟩,
        ⟨.number, "2", 1⟩, ⟨.operator, "*", 1⟩, ⟨.number, "3", 1⟩, ⟨.operator, "**", 1⟩,
        ⟨.number, "4", 1⟩] ++ [⟨.endOfFile, [], 1⟩]) := by decide +kernel
  obtain ⟨-, hnodes, -⟩ := run.eq_of_steps htokens
    (.assigned rfl rfl (Parse.value_power (by decide)) .nil) (by simp [Limits.setting])
  refine ⟨run.read, 3, 2, run.readProgram_eq, ?_, by decide⟩
  rw [Reading.Run.read, hnodes]
  -- The way turns aside into right operands, down to the number in front of the last operator.
  let power : Node := .binary "**" (some (.number "3")) (some (.number "4"))
  let product : Node := .binary "*" (some (.number "2")) (some power)
  let sum : Node := .binary "+" (some (.number "1")) (some product)
  have hleaf : Node.Way (.number "3") 0 0 := .leaf fun _ h => by cases h
  have hpower : Node.Way power 1 0 := .straight (n := power) (.head _) hleaf
  have hproduct : Node.Way product 2 1 := .aside (n := product) (.head _) hpower
  have hsum : Node.Way sum 3 2 := .aside (n := sum) (.head _) hproduct
  have hassignment : Node.Way (.assignment "#1" (some sum)) 3 2 :=
    .straight (n := .assignment "#1" (some sum)) (.head _) hsum
  exact .straight (n := .program [some (.assignment "#1" (some sum))]) (.head _) hassignment

end Gcode
