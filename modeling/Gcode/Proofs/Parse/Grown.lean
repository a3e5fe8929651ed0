import Gcode.Proofs.Node.Beneath
import Gcode.Proofs.Parse.OWord

/-!
# The trees of statements

What a parse makes of statements, in trees: where expressions stand in a statement, how deep they
were read, and what is known of a block and the line that closes it. Of the expressions nothing is
said but that a property holds of them, which any parse of an expression has to have.

## Main definitions

* `Parse.Expressions` — a property of all expressions that are read.
* `Parse.Elements` — a property of all expressions and commands that are read.
* `Parse.Grown` — a statement as a parse builds it.

## Main statements

* `Parse.statement_grown` — every statement that is read is one.
* `Parse.program_grown` — the statements of a program are such.
* `exists_parse_everyAt` — what is to be checked for a property of every node of a program and the
  number of blocks around it.
* `exists_parse_every` — the same of a property of nodes alone.
-/

namespace Gcode

/-- The label and the keyword of the header that a statement begins with. -/
def Node.heading? : Node → Option (Option Node × Text)
  | .oStatement (some (.header _ label keyword _)) _
  | .block _ (some (.header _ label keyword _)) _ _ => some (label, keyword)
  | _ => none

namespace Parse

variable (s : Setting) (E : Nat → Option Node → Prop)

/-- The property holds of all expressions that are read, at the depth at which they are. -/
structure Expressions : Prop where
  missing : ∀ depth, E depth none
  value : ∀ depth ahead, E depth (Parse.value s depth ahead).value
  bracket : ∀ depth ahead, E depth (optionalBracket s depth ahead).value
  word : ∀ {depth letter n}, E depth n → E depth (some (.word letter n))
  call : ∀ {depth name n}, E depth n → E depth (some (.call name n))

/-- The property holds of all expressions and commands that are read, at the depth at which they
are. It need not hold of others that are built from such. -/
structure Elements : Prop where
  missing : ∀ depth, E depth none
  value : ∀ depth ahead, E depth (Parse.value s depth ahead).value
  bracket : ∀ depth ahead, E depth (optionalBracket s depth ahead).value
  word : ∀ depth ahead, E depth (some (wordWithValue s depth ahead).value)
  call : ∀ depth ahead, E depth (some (functionCall s depth ahead).value)

/-- A command that is read at a depth. -/
inductive Item (depth : Nat) : Node → Prop
  | comment (text : Text) : Item depth (.comment text)
  | unknown (text : Text) (line : Int) : Item depth (.unknown text line)
  | expression {n : Node} : E depth (some n) → Item depth n

/-- A header with parts that are read at a depth. -/
inductive Headed (depth : Nat) : Node → Prop
  | header {oWord keyword : Text} {label condition : Option Node} : E depth label →
    E depth condition → Headed depth (.header oWord label keyword condition)

/-- A statement of a block that it does not close: its keyword is another one, or its label does
not match. -/
def StaysOpen (label : Option Node) (close : Text) (n : Node) : Prop :=
  ∀ label', n.heading? = some (label', close) → Node.labelsMatch label label' = .ok false

/-- The header of the line that closes a block. -/
def Closes (label : Option Node) (close : Text) (n : Node) : Prop :=
  ∃ oWord label' condition, n = .header oWord label' close condition ∧
    Node.labelsMatch label label' = .ok true

/-- A statement that is read at a depth. -/
inductive Grown : Nat → Node → Prop
  | lineBreak (depth : Nat) (text : Text) : Grown depth (.endOfLine text)
  | comment (depth : Nat) (text : Text) : Grown depth (.comment text)
  | unknown (depth : Nat) (text : Text) (line : Int) : Grown depth (.unknown text line)
  | assignment {depth : Nat} {target : Text} {value : Option Node} : E depth value →
    Grown depth (.assignment target value)
  | commands {depth : Nat} {nodes : List Node} : (∀ n ∈ nodes, Item E depth n) →
    Grown depth (.commandLine (nodes.map some))
  | flat {depth : Nat} {header : Node} {nodes : List Node} : Headed E depth header →
    (∀ n ∈ nodes, Item E depth n) →
    Grown depth (.oStatement (some header) (some (.commandLine (nodes.map some))))
  | block {depth : Nat} {oWord keyword close : Text} {label condition closing : Option Node}
    {body : List Node} : (depth : Int) < s.maxDepth → Keyword.closing? keyword = some close →
    Headed E depth (.header oWord label keyword condition) →
    (∀ n ∈ body, Grown (depth + 1) n) → (∀ n ∈ body, StaysOpen label close n) →
    (∀ n ∈ closing, Headed E (depth + 1) n ∧ Closes label close n) →
    Grown depth (.block keyword (some (.header oWord label keyword condition)) (body.map some)
      closing)

variable {s E}

/-! ## Commands and headers -/

theorem Expressions.elements (hE : Expressions s E) : Elements s E where
  missing := hE.missing
  value := hE.value
  bracket := hE.bracket
  word depth ahead := by
    refine hE.word ?_
    dsimp only [Parsed.behind]
    split
    · exact hE.value depth (advance s ahead).rest
    · exact hE.missing depth
  call depth ahead := hE.call (hE.bracket depth (advance s ahead).rest)

theorem command_grown (hE : Elements s E) (depth : Nat) (ahead : List Token) :
    Item E depth (command s depth ahead).value := by
  unfold command
  split
  case h_1 => exact .expression (hE.word depth ahead)
  case h_2 hk =>
    have hbracket := hE.bracket depth ahead
    rw [optionalBracket, if_pos hk] at hbracket
    exact .expression hbracket
  case h_3 => exact .expression (hE.call depth ahead)
  case h_4 => exact .unknown _ _

theorem commands_grown (hE : Elements s E) (depth : Nat) (ahead : List Token) :
    ∀ n ∈ (commands s depth ahead).value, Item E depth n := by
  refine (steadyLoop_holds s "command line" (D := fun _ => True) fun ahead' => ?_).1
  unfold commandTurn
  split
  · trivial
  · split
    · exact .comment _
    · exact command_grown hE depth ahead'

theorem flatStatement_grown (hE : Elements s E) {depth : Nat} {header : Node}
    (h : Headed E depth header) (ahead : List Token) :
    Grown s E depth (flatStatement s depth header ahead).value :=
  .flat h (commands_grown hE depth ahead)

theorem assignment_grown (hE : Elements s E) (depth : Nat) (ahead : List Token) :
    Grown s E depth (assignment s depth ahead).value :=
  .assignment (hE.value depth (expect s .assign (advance s ahead).rest).rest)

/-- The condition of a branch, and that of anything else, which has none. -/
theorem branchCondition_holds (hE : Elements s E) (depth : Nat) (keyword : Text)
    (ahead : List Token) :
    E depth (branchCondition s depth keyword ahead).value := by
  unfold branchCondition
  split
  · exact hE.bracket depth ahead
  · exact hE.missing depth

/-! ## The end of a block -/

/-- The line that closes a block is read as it was seen when it was looked for. -/
theorem closingHeader_closes {depth : Nat} {label : Option Node} {close : Text}
    {ahead : List Token} (h : closesHere s depth label close ahead = .ok true) :
    Closes label close (closingHeader s depth ahead).value := by
  obtain ⟨-, -, rfl, hmatch⟩ := closesHere_eq_true h
  exact ⟨_, _, _, rfl, hmatch⟩

theorem closingHeader_headed (hE : Elements s E) (depth : Nat) (ahead : List Token) :
    Headed E depth (closingHeader s depth ahead).value :=
  .header (hE.value depth (advance s ahead).rest)
    (hE.bracket depth (advance s (labelAhead s depth ahead).rest).rest)

/-- The statement has no other label and no other keyword than those that are ahead. -/
def HeadedBy (s : Setting) (depth : Nat) (ahead : List Token) (n : Node) : Prop :=
  ∀ label keyword, n.heading? = some (label, keyword) → keyword ≠ [] →
    isOWord (current s ahead) = true ∧ label = (labelAhead s depth ahead).value ∧
      (keywordAhead s depth ahead).kind = .flow ∧
        keyword = Text.upper (keywordAhead s depth ahead).value

theorem closing?_ne_nil {keyword close : Text} (h : Keyword.closing? keyword = some close) :
    close ≠ [] := by
  unfold Keyword.closing? at h
  repeat' split at h
  all_goals
    cases h
    try decide

/-- A statement that was seen not to close a block does not begin with what closes it. -/
theorem HeadedBy.staysOpen {depth : Nat} {label : Option Node} {close : Text} {ahead : List Token}
    {n : Node} (h : HeadedBy s depth ahead n) (hne : close ≠ [])
    (hc : closesHere s depth label close ahead = .ok false) : StaysOpen label close n := by
  intro label' hn
  obtain ⟨ho, rfl, hflow, hkeyword⟩ := h label' close hn hne
  rwa [closesHere_eq, if_pos (by simp [ho, hflow, hkeyword])] at hc

/-- A turn of a block whose statements are as a parse builds them: what it reads does not close the
block, or it is the header that does. -/
theorem blockTurn_grown (hE : Elements s E) {depth : Nat} {label : Option Node} {close : Text}
    (hne : close ≠ []) {ahead : List Token}
    (hstatement : ∀ p, statement s (depth + 1) ahead = .ok p →
      Grown s E (depth + 1) p.value ∧ HeadedBy s (depth + 1) ahead p.value)
    {r : Turn Node (Option Node) ahead} (hr : blockTurn s depth label close ahead = .ok r) :
    r.Holds (fun n => Grown s E (depth + 1) n ∧ StaysOpen label close n)
      fun closing => ∀ n ∈ closing, Headed E (depth + 1) n ∧ Closes label close n := by
  obtain ⟨-, rfl⟩ | ⟨-, ⟨hcloses, rfl⟩ | ⟨hcloses, p, hp, rfl⟩⟩ := blockTurn_eq_ok hr
  · exact fun n hn => by cases hn
  · intro n hn
    obtain rfl : (closingHeader s (depth + 1) ahead).value = n := Option.some.inj hn
    exact ⟨closingHeader_headed hE (depth + 1) ahead, closingHeader_closes hcloses⟩
  · obtain ⟨hgrown, hheaded⟩ := hstatement p hp
    exact ⟨hgrown, hheaded.staysOpen hne hcloses⟩

/-! ## Statements -/

mutual

theorem statement_grown (hE : Elements s E) (depth : Nat) (ahead : List Token)
    {p : Parsed Node ahead} (hp : statement s depth ahead = .ok p) :
    Grown s E depth p.value ∧ HeadedBy s depth ahead p.value := by
  have headless : ∀ {n : Node}, n.heading? = none → HeadedBy s depth ahead n := by
    intro n hn label keyword h
    rw [hn] at h
    cases h
  obtain rfl | rfl | rfl | ⟨-, rfl⟩ | ⟨ho, hline⟩ | ⟨-, rfl⟩ | rfl := statement_eq_ok s hp
  · exact ⟨.unknown depth _ _, headless rfl⟩
  · exact ⟨.lineBreak depth _, headless rfl⟩
  · exact ⟨.comment depth _, headless rfl⟩
  · exact ⟨assignment_grown hE depth ahead, headless rfl⟩
  · exact oStatement_grown hE depth ahead ho hline
  · exact ⟨.unknown depth _ _, headless rfl⟩
  · exact ⟨.commands (commands_grown hE depth ahead), headless rfl⟩
termination_by (ahead.length, 1)
decreasing_by exact Prod.Lex.right _ (by omega)

theorem oStatement_grown (hE : Elements s E) (depth : Nat) (ahead : List Token)
    (ho : isOWord (current s ahead) = true) {p : Parsed Node ahead}
    (hp : oStatement s depth ahead = .ok p) :
    Grown s E depth p.value ∧ HeadedBy s depth ahead p.value := by
  have hlabel : E depth (labelAhead s depth ahead).value := hE.value depth (advance s ahead).rest
  obtain ⟨hflow, q, hq, rfl⟩ | ⟨hflow, rfl⟩ | rfl := oStatement_eq_ok hp
  · have hlt := length_keyworded_lt hflow
    obtain ⟨hgrown, hheading⟩ := block_grown hE depth hlabel _ hq
    refine ⟨hgrown, fun label keyword h _ => ?_⟩
    obtain ⟨rfl, rfl⟩ := Prod.mk.inj (Option.some.inj (hheading.symm.trans h))
    exact ⟨ho, rfl, hflow, rfl⟩
  · have hcondition := branchCondition_holds hE depth
      (Text.upper (keywordAhead s depth ahead).value) (keyworded s depth ahead).rest
    refine ⟨flatStatement_grown hE (.header hlabel hcondition) _, ?_⟩
    intro label keyword h _
    cases h
    exact ⟨ho, rfl, hflow, rfl⟩
  · refine ⟨flatStatement_grown hE (.header hlabel (hE.missing depth)) _, ?_⟩
    intro label keyword h hne
    cases h
    contradiction
termination_by (ahead.length, 0)
decreasing_by exact Prod.Lex.left _ _ hlt

theorem block_grown (hE : Elements s E) (depth : Nat) {oWord : Token} {label : Option Node}
    (hlabel : E depth label) {keyword : Text} (ahead : List Token) {p : Parsed Node ahead}
    (hp : block s depth oWord label keyword ahead = .ok p) :
    Grown s E depth p.value ∧ p.value.heading? = some (label, keyword) := by
  have hcondition := hE.bracket depth ahead
  by_cases hd : s.maxDepth ≤ depth
  · rw [block_of_le s hd] at hp
    cases hp
    exact ⟨flatStatement_grown hE (.header hlabel hcondition) _, rfl⟩
  · obtain ⟨close, hclose, body, hbody, rfl⟩ := block_eq_ok s hd hp
    dsimp only [Parsed.behind]
    rw [finished_value]
    have hturn : ∀ (ahead' : List Token) (_ : ahead' <:+ (optionalBracket s depth ahead).rest)
        (r : Turn Node (Option Node) ahead'), blockTurn s depth label close ahead' = .ok r →
        r.Holds (fun n => Grown s E (depth + 1) n ∧ StaysOpen label close n)
          fun closing => ∀ n ∈ closing, Headed E (depth + 1) n ∧ Closes label close n :=
      fun ahead' _ r => blockTurn_grown hE (closing?_ne_nil hclose) fun p =>
        statement_grown hE (depth + 1) ahead'
    obtain ⟨hitems, hresult⟩ := turns_holds s _ hturn _ _ _ hbody
    refine ⟨.block (Int.not_le.mp hd) hclose (.header hlabel hcondition)
      (fun n hn => (hitems n hn).1) (fun n hn => (hitems n hn).2) fun n hn => ?_, rfl⟩
    exact hresult _ (Option.join_eq_some_iff.mp hn) n rfl
termination_by (ahead.length, 2)
decreasing_by
  exact Prod.Lex.right' _ (Nat.le_trans (List.IsSuffix.length_le ‹_›) (Parsed.length_rest_le _))
    (by omega)

end

/-! ## Programs -/

theorem lineBreaks_grown (depth : Nat) (ahead : List Token) :
    ∀ n ∈ (lineBreaks ahead).value, Grown s E depth n := by
  induction ahead with
  | nil => simp [lineBreaks, Parsed.pure]
  | cons t rest ih =>
    unfold lineBreaks
    split
    · exact List.forall_mem_cons.mpr ⟨.lineBreak depth t.value, ih⟩
    · simp [Parsed.pure]

theorem leftovers_grown (depth : Nat) (ahead : List Token) :
    ∀ n ∈ (leftovers s ahead).value, Grown s E depth n := by
  unfold leftovers
  dsimp only
  split
  · exact lineBreaks_grown depth ahead
  · refine List.forall_mem_append.mpr ⟨lineBreaks_grown depth ahead, ?_⟩
    exact List.forall_mem_singleton.mpr (.unknown depth _ _)

theorem program_grown (hE : Elements s E) (depth : Nat) (ahead : List Token)
    {p : Parsed Program ahead} (hp : program s depth ahead = .ok p) :
    ∃ nodes : List Node, p.value.statements = nodes.map some ∧ ∀ n ∈ nodes, Grown s E depth n := by
  have hturn : ∀ (ahead' : List Token) (_ : ahead' <:+ ahead) (r : Turn Node Unit ahead'),
      programTurn s depth ahead' = .ok r → r.Holds (Grown s E depth) fun _ => True := by
    intro ahead' _ r hr
    obtain ⟨-, rfl⟩ | ⟨-, q, hq, rfl⟩ := programTurn_eq_ok hr
    · trivial
    · exact (statement_grown hE depth ahead' hq).1
  rw [program_eq_loop] at hp
  obtain ⟨q, hq, rfl⟩ := map_eq_ok.mp hp
  obtain ⟨hitems, -⟩ := turns_holds s _ hturn _ _ _ hq
  refine ⟨_, rfl, List.forall_mem_append.mpr ⟨hitems, ?_⟩⟩
  exact leftovers_grown depth q.rest

end Parse

namespace Parse

/-! ## What is inside a statement -/

variable {s : Setting} {E : Nat → Option Node → Prop} {P : Nat → Node → Prop}

/-- A node that is no expression with operands and no block. -/
def Plain (n : Node) : Prop := n.operands = [] ∧ ∀ k h b c, n ≠ .block k h b c

section

variable (hE : ∀ depth n, E depth n → Node.EveryAt P depth n)
  (hplain : ∀ depth n, Plain n → P depth n)

include hE hplain

theorem Item.everyAt {depth : Nat} {n : Node} (h : Item E depth n) :
    Node.EveryAt P depth (some n) := by
  cases h with
  | comment | unknown =>
    refine (Node.everyAt_some_iff_of_body rfl rfl).mpr ⟨hplain depth _ ⟨rfl, by simp⟩, ?_⟩
    simp [Node.children, Node.operands]
  | expression h => exact hE depth _ h

theorem Headed.everyAt {depth : Nat} {n : Node} (h : Headed E depth n) :
    Node.EveryAt P depth (some n) := by
  cases h with
  | header hl hc =>
    refine (Node.everyAt_some_iff_of_body rfl rfl).mpr ⟨hplain depth _ ⟨rfl, by simp⟩, ?_⟩
    simpa [Node.children] using ⟨hE depth _ hl, hE depth _ hc⟩

/-- A property holds of every node of a statement if it holds of every node of its expressions, of
its plain nodes and of its blocks. The line that closes a block is read in the block, but is not
one of its statements. -/
theorem Grown.everyAt (hblock : ∀ {depth k h b c}, Grown s E depth (.block k h b c) →
      P depth (.block k h b c)) (hP : ∀ depth m, P (depth + 1) m → P depth m)
    {depth : Nat} {n : Node} (h : Grown s E depth n) : Node.EveryAt P depth (some n) := by
  have hitems : ∀ {depth : Nat} {nodes : List Node}, (∀ n ∈ nodes, Item E depth n) →
      Node.EveryAt P depth (some (.commandLine (nodes.map some))) := by
    intro depth nodes hnodes
    refine (Node.everyAt_some_iff_of_body rfl rfl).mpr
      ⟨hplain depth _ ⟨rfl, by simp⟩, fun c hc => ?_⟩
    obtain ⟨n, hn, rfl⟩ := List.mem_map.mp hc
    exact (hnodes n hn).everyAt hE hplain
  induction h with
  | lineBreak | comment | unknown =>
    refine (Node.everyAt_some_iff_of_body rfl rfl).mpr ⟨hplain _ _ ⟨rfl, by simp⟩, ?_⟩
    simp [Node.children, Node.operands]
  | assignment h =>
    refine (Node.everyAt_some_iff_of_body rfl rfl).mpr ⟨hplain _ _ ⟨rfl, by simp⟩, ?_⟩
    simpa [Node.children] using hE _ _ h
  | commands h => exact hitems h
  | flat hh hc =>
    refine (Node.everyAt_some_iff_of_body rfl rfl).mpr ⟨hplain _ _ ⟨rfl, by simp⟩, ?_⟩
    simpa [Node.children] using ⟨hh.everyAt hE hplain, hitems hc⟩
  | block hd hclose hh hbody hopen hend ih =>
    refine Node.everyAt_some_iff.mpr ⟨hblock (.block hd hclose hh hbody hopen hend), ?_, ?_⟩
    · intro c hc
      rcases List.mem_cons.mp hc with rfl | hc
      · exact hh.everyAt hE hplain
      · obtain rfl := List.mem_singleton.mp hc
        refine Node.EveryAt.shallower hP fun root hroot => ?_
        exact (hend root hroot).1.everyAt hE hplain root rfl
    · intro c hc
      obtain ⟨n, hn, rfl⟩ := List.mem_map.mp hc
      exact ih n hn

end

end Parse

/-- A parse of any tokens succeeds. A property holds of every node of its program, with the number
of blocks around it, if it holds of every node of the expressions that are read, of plain nodes,
and of blocks. -/
theorem exists_parse_everyAt {P : Nat → Node → Prop} {tokens : List Token} {limits : Limits}
    (hE : ∀ s, s.maxDepth = limits.maxDepth → Parse.Elements s (Node.EveryAt P))
    (hplain : ∀ depth n, Parse.Plain n → P depth n)
    (hblock : ∀ {s depth k h b c}, s.maxDepth = limits.maxDepth →
      Parse.Grown s (Node.EveryAt P) depth (.block k h b c) → P depth (.block k h b c))
    (hP : ∀ depth m, P (depth + 1) m → P depth m) :
    ∃ program reports, parse tokens limits = .ok (program, reports) ∧
      Node.EveryAt P 0 (some program.node) := by
  obtain ⟨p, hp, hparse⟩ := exists_program_eq tokens limits
  obtain ⟨nodes, hvalue, hgrown⟩ := Parse.program_grown (hE _ rfl) 0 _ hp
  refine ⟨p.value, p.reports, hparse, ?_⟩
  refine (Node.everyAt_some_iff_of_body rfl rfl).mpr
    ⟨hplain 0 _ ⟨rfl, by simp [Program.node]⟩, fun c hc => ?_⟩
  have hmem : c ∈ nodes.map some := hvalue ▸ hc
  obtain ⟨n, hn, rfl⟩ := List.mem_map.mp hmem
  exact (hgrown n hn).everyAt (fun _ _ h => h) hplain (hblock rfl) hP

/-- A parse of any tokens succeeds. A property holds of every node of its program if it holds of
every node of the expressions that are read, of plain nodes, and of blocks. -/
theorem exists_parse_every {P : Node → Prop}
    (hE : ∀ s, Parse.Expressions s fun _ => Node.Every P) (hplain : ∀ n, Parse.Plain n → P n)
    (hblock : ∀ {s : Setting} depth k h b c,
      Parse.Grown s (fun _ => Node.Every P) depth (.block k h b c) → P (.block k h b c))
    (tokens : List Token) (limits : Limits) :
    ∃ program reports, parse tokens limits = .ok (program, reports) ∧
      Node.Every P (some program.node) := by
  have hconst : (Node.EveryAt fun _ => P) = fun _ => Node.Every P := by
    funext depth n
    exact propext Node.everyAt_const
  obtain ⟨program, reports, hparse, hevery⟩ := @exists_parse_everyAt (fun _ => P) tokens limits
    (fun s _ => hconst ▸ (hE s).elements) (fun _ => hplain)
    (fun _ h => hblock _ _ _ _ _ (hconst ▸ h)) (fun _ _ h => h)
  exact ⟨program, reports, hparse, Node.everyAt_const.mp hevery⟩

end Gcode
