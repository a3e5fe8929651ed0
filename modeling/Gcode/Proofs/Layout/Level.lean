import Gcode.Proofs.Layout.Ink

/-!
# The levels of fragments

How deep a fragment is indented depends on the tree alone: on the number of blocks whose bodies
its statement stands in, and on whether it begins a branch of a conditional. A page is filled with
the fragments of its statements, each at its level, whatever the tree is: nothing but the class of
what stands behind a header has to be known.

## Main definitions

* `Node.leveled` — the fragments of a node in order, each with its level.
* `Node.Lined` — lines of commands behind the headers of statements, and nothing else.
* `Layout.Places` — fragments put on a page, each at its level.

## Main statements

* `Layout.statements_places` — statements that can be written are written fragment by fragment.
-/

namespace Gcode

namespace Node

/-! ## Levels -/

/-- The statement begins a branch of a conditional. -/
def isBranch : Option Node → Bool
  | some (.oStatement (some (.header _ _ keyword _)) _) => Keyword.isBranch keyword
  | _ => false

/-- The level of a statement that stands in the bodies of `blocks` blocks, the innermost of which
is a conditional or not: the beginnings of its branches are as deep as the conditional itself. -/
def levelIn (blocks : Nat) (conditional : Bool) (n : Option Node) : Nat :=
  if conditional && isBranch n then blocks - 1 else blocks

mutual

/-- The fragments of a statement at a level in order, each with its own level. -/
def leveled (level : Nat) : Node → List (Nat × Fragment)
  | .block keyword head body closing =>
    (level, .header head) :: leveledOf (level + 1) (keyword = "IF") body ++
      (closing.map fun node => (level, Fragment.header (some node))).toList
  | node => (fragments node).map (level, ·)

/-- The fragments of statements that stand one behind the other in the bodies of `blocks` blocks,
the innermost of which is a conditional or not. -/
def leveledOf (blocks : Nat) (conditional : Bool) : List (Option Node) → List (Nat × Fragment)
  | [] => []
  | none :: nodes => leveledOf blocks conditional nodes
  | some node :: nodes =>
    leveled (levelIn blocks conditional (some node)) node ++ leveledOf blocks conditional nodes

end

mutual

/-- Without the levels, these are the fragments. -/
theorem map_snd_leveled (level : Nat) (n : Node) :
    (leveled level n).map Prod.snd = fragments n := by
  cases n with
  | block keyword head body closing =>
    cases closing <;> simp [leveled, fragments, map_snd_leveledOf]
  | _ => simp [leveled, Function.comp_def]

theorem map_snd_leveledOf (blocks : Nat) (conditional : Bool) (nodes : List (Option Node)) :
    (leveledOf blocks conditional nodes).map Prod.snd = fragmentsOf nodes := by
  match nodes with
  | [] => rfl
  | none :: nodes => rw [leveledOf, fragmentsOf, map_snd_leveledOf blocks conditional nodes]
  | some node :: nodes =>
    rw [leveledOf, fragmentsOf, List.map_append, map_snd_leveled _ node,
      map_snd_leveledOf blocks conditional nodes]

end

/-! ## Lines of commands behind headers -/

mutual

/-- What stands behind the header of a statement is a line of commands. -/
def Lined : Node → Prop
  | .oStatement _ line => ∃ nodes, line = some (.commandLine nodes)
  | .block _ _ body _ => LinedOf body
  | _ => True

/-- The same of all statements that are there. -/
def LinedOf : List (Option Node) → Prop
  | [] => True
  | none :: nodes => LinedOf nodes
  | some node :: nodes => Lined node ∧ LinedOf nodes

end

end Node

/-! ## Statements on a page -/

namespace Layout

open Node (Lined LinedOf leveled leveledOf levelIn isBranch)

/-- Putting the fragments on a page, each that opens a statement at its level, gives the page. -/
inductive Places (width : Nat) : Page → List (Nat × Fragment) → Page → Prop
  | nil (page : Page) : Places width page [] page
  | put {page last : Page} (level : Nat) {f : Fragment} {fs : List (Nat × Fragment)} {text : Text} :
    f.written = .ok text → f.opens = false ∨ f.stays page = true →
    Places width (page.put text) fs last → Places width page ((level, f) :: fs) last
  | opened {page last : Page} {level : Nat} {f : Fragment} {fs : List (Nat × Fragment)}
    {text : Text} : f.written = .ok text → f.opens = true → f.stays page = false →
    Places width ((page.beginStatement width level).put text) fs last →
    Places width page ((level, f) :: fs) last

variable {width : Nat}

namespace Places

theorem append {page middle last : Page} {fs gs : List (Nat × Fragment)}
    (h : Places width page fs middle) (k : Places width middle gs last) :
    Places width page (fs ++ gs) last := by
  induction h with
  | nil => exact k
  | put level hw ho _ ih => exact .put level hw ho (ih k)
  | opened hw ho hs _ ih => exact .opened hw ho hs (ih k)

theorem single_put {page : Page} (level : Nat) {f : Fragment} {text : Text}
    (hw : f.written = .ok text) (ho : f.opens = false ∨ f.stays page = true) :
    Places width page [(level, f)] (page.put text) :=
  .put level hw ho (.nil _)

/-- Every fragment that is put on the page has a text. -/
theorem written_eq_ok {page last : Page} {fs : List (Nat × Fragment)}
    (h : Places width page fs last) : ∀ f ∈ fs, ∃ text, f.2.written = .ok text := by
  induction h with
  | nil => simp
  | put _ hw _ _ ih | opened hw _ _ _ ih => exact List.forall_mem_cons.mpr ⟨⟨_, hw⟩, ih⟩

end Places

/-- A fragment that opens a statement is put at its level. -/
theorem places_put {f : Fragment} (ho : f.opens = true) {page last : Page} {level : Nat}
    (hs : f.stays page = false) (h : put width level page f.written = .ok last) :
    Places width page [(level, f)] last := by
  obtain ⟨text, hw, rfl⟩ := map_eq_ok.mp h
  exact .opened hw ho hs (.nil _)

/-- The commands behind a header are put on the page. -/
theorem places_tail {nodes : List (Option Node)} {text : Text} (level : Nat)
    (h : commandsBehind (some (.commandLine nodes)) = .ok text) (page : Page) :
    Places width page ((Node.tail (some (.commandLine nodes))).map (level, ·))
      (if text.isEmpty then page else page.put text) := by
  rw [commandsBehind] at h
  rw [Node.tail]
  split at h
  case isTrue hnil =>
    cases h
    rw [if_pos hnil]
    exact .nil page
  case isFalse hne =>
    rw [if_neg hne]
    obtain ⟨t, -, rfl⟩ := map_eq_ok.mp h
    exact .single_put level h (.inl rfl)

/-- Stray text at the start of a line stays as it is if it is blank. -/
theorem places_stray {text : Text} {line : Int} {page last : Page} {level : Nat}
    (h : statement width level page (.unknown text line) = .ok last) :
    Places width page [(level, .stray text)] last := by
  rw [statement] at h
  split at h
  case isTrue hs =>
    cases h
    exact .single_put level rfl (.inr hs)
  case isFalse hs => exact places_put rfl (Bool.eq_false_iff.mpr hs) h

/-- In the bodies of `blocks` blocks, the innermost of which is a conditional or not, statements
are given their levels. -/
def LevelsIn (blocks : Nat) (conditional : Bool)
    (level : Option Node → Except Unwritable Nat) : Prop :=
  ∀ n l, level n = .ok l → l = levelIn blocks conditional n

/-- Outside of all blocks, the level is 0. -/
theorem levelsIn_outermost : LevelsIn 0 false fun _ => .ok 0 :=
  fun _ _ hl => (Except.ok.inj hl).symm

theorem levelsIn_bodyLevel (keyword : Text) (level : Nat) :
    LevelsIn (level + 1) (keyword = "IF") (bodyLevel keyword level) := by
  have hbranch : ∀ n b, beginsBranch n = .ok b → b = isBranch n := by
    intro n b hb
    unfold beginsBranch at hb
    split at hb <;> cases hb <;> simp [isBranch]
  intro n l hl
  unfold bodyLevel at hl
  split at hl
  case isTrue hk =>
    obtain ⟨b, hb, rfl⟩ := map_eq_ok.mp hl
    rw [levelIn, hbranch n b hb, decide_eq_true hk, Bool.true_and, Nat.add_sub_cancel]
  case isFalse hk =>
    cases hl
    rw [levelIn, decide_eq_false hk]
    rfl

mutual

/-- A statement that can be written is written fragment by fragment. -/
theorem statement_places {level : Nat} {page last : Page} (n : Node) (hn : Lined n)
    (h : statement width level page n = .ok last) :
    Places width page (leveled level n) last := by
  match n with
  | .endOfLine text =>
    cases h
    exact .single_put level rfl (.inl rfl)
  | .comment text | .assignment target value => exact places_put rfl rfl h
  | .unknown text line => exact places_stray h
  | .commandLine nodes =>
    rw [statement] at h
    change Places width page ((Node.fragments (.commandLine nodes)).map (level, ·)) last
    rw [Node.fragments]
    split at h
    case isTrue hnil =>
      cases h
      rw [if_pos hnil]
      exact .nil page
    case isFalse hne =>
      rw [if_neg hne]
      exact places_put rfl rfl h
  | .oStatement head line =>
    obtain ⟨nodes, rfl⟩ := hn
    rw [statement] at h
    obtain ⟨middle, hhead, hline⟩ := bind_eq_ok.mp h
    obtain ⟨text, htext, hlast⟩ := bind_eq_ok.mp hline
    cases hlast
    exact (places_put (f := .header head) rfl rfl hhead).append (places_tail level htext middle)
  | .block keyword head body closing =>
    rw [statement] at h
    obtain ⟨opened, hhead, hrest⟩ := bind_eq_ok.mp h
    obtain ⟨inside, hbody, hlast⟩ := bind_eq_ok.mp hrest
    have hopened := places_put (f := .header head) rfl rfl hhead
    have hinside := statements_places body hn (levelsIn_bodyLevel keyword level) hbody
    rw [leveled]
    refine (hopened.append hinside).append ?_
    cases closing with
    | none =>
      cases hlast
      exact .nil last
    | some node => exact places_put (f := .header (some node)) rfl rfl hlast

/-- Statements that can be written are written fragment by fragment, each at its level. -/
theorem statements_places {blocks : Nat} {conditional : Bool} {page last : Page}
    {level : Option Node → Except Unwritable Nat} (nodes : List (Option Node))
    (hnodes : LinedOf nodes) (hlevel : LevelsIn blocks conditional level)
    (h : statements width level page nodes = .ok last) :
    Places width page (leveledOf blocks conditional nodes) last := by
  match nodes with
  | [] =>
    cases h
    exact .nil page
  | node :: nodes =>
    rw [statements] at h
    obtain ⟨l, hl, hnode⟩ := bind_eq_ok.mp h
    obtain ⟨middle, hmiddle, hrest⟩ := bind_eq_ok.mp hnode
    rw [hlevel node l hl] at hmiddle
    cases node with
    | none => cases hmiddle
    | some node =>
      exact (statement_places node hnodes.1 hmiddle).append
        (statements_places nodes hnodes.2 hlevel hrest)

end

end Layout

end Gcode
