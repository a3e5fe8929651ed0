import Gcode.Proofs.Parse.Block
import Gcode.Proofs.Parse.Coarser
import Gcode.Proofs.Parse.Recovery
import Gcode.Proofs.Parse.Room
import Gcode.Proofs.Parse.Span

/-!
# Labels near the limit on nesting

The label that opens a block is read one level higher than the label that is to close it, so that
of a long label more is cut off on the closing line than on the opening one. Signs and brackets
are seen as text in the flat text of a label whether they are cut off or not, but an operator has
its pair of parentheses only if it is not cut off. So the block is closed exactly if both readings
keep equally many operators.

## Main definitions

* `Parse.Whole`, `Parse.Faultless` — labels that are read to the end if the limit allows it.
* `Conditional` — the tokens of a conditional around its two labels.
* `Conditional.Closed` — its program if the second label closes it.

## Main statements

* `parse_conditional` — when a conditional is closed.
* `parse_conditional_unmatched` — one that is not, though its labels are the same.
-/

namespace Gcode

open Node (labelsMatch operatorCount?)
open Reading (Spans)

/-! ## Labels -/

namespace Parse

/-- The token ends neither an expression nor a line. -/
def IsInner (t : Token) : Prop :=
  t.kind ≠ .flow ∧ t.kind ≠ .endOfLine ∧ t.kind ≠ .endOfFile

/-- An expression of which nothing is cut off is made of inner tokens. -/
theorem exists_inner_append {n : Option Node} {ahead rest : List Token}
    (h : Reading.Expression False n ahead rest) :
    ∃ used, ahead = used ++ rest ∧ ∀ t ∈ used, IsInner t := by
  refine h.forall_used (fun t ht => ?_) fun _ hcut => hcut.elim
  exact ⟨ne_of_mem_of_not_mem ht (by decide), ne_of_mem_of_not_mem ht (by decide),
    ne_of_mem_of_not_mem ht (by decide)⟩

/-- A setting with room for that much nesting. -/
def roomy (maxDepth : Int) : Setting := ⟨0, [], 1, 0, maxDepth⟩

/-- The tokens are read to the end as one expression, if the limit on nesting allows it. -/
def Whole (label : List Token) : Prop :=
  ∃ bound : Int, ∀ s : Setting, bound ≤ s.maxDepth → (value s 0 label).rest = []

/-- Nothing is reported of the tokens, if the limit on nesting allows it, and each of them is
written as part of a label. -/
structure Faultless (label : List Token) : Prop where
  unreported : ∃ bound : Int, ∀ s : Setting, bound ≤ s.maxDepth → (value s 0 label).reports = []
  proper : ∀ t ∈ label, Sound.Proper t

theorem Whole.isInner {label : List Token} (h : Whole label) : ∀ t ∈ label, IsInner t := by
  obtain ⟨bound, hrest⟩ := h
  let s := roomy (max bound label.length)
  have hroom : ¬Guarded (value s 0 label).reports :=
    value_unguarded s 0 label (by rw [Nat.zero_add]; exact Int.le_max_right _ _)
  have hreads := @value_reads s False 0 label hroom
  rw [hrest s (Int.le_max_left _ _)] at hreads
  obtain ⟨used, heq, hused⟩ := exists_inner_append hreads
  rw [List.append_nil] at heq
  exact heq ▸ hused

/-- A label of which nothing is reported is made of operands and operators. -/
theorem Whole.sound {label : List Token} (h : Whole label) (hfaultless : Faultless label) :
    ∃ ts us, Sound.Operand ts ∧ Sound.Operators us ∧ label = ts ++ us := by
  obtain ⟨bound, hrest⟩ := h
  obtain ⟨bound', hreports⟩ := hfaultless.unreported
  let s := roomy (max bound bound')
  obtain ⟨ts, us, hts, hus, heq⟩ :=
    value_sound s 0 hfaultless.proper (hreports s (Int.le_max_right _ _))
  rw [hrest s (Int.le_max_left _ _), List.append_nil] at heq
  exact ⟨ts, us, hts, hus, heq⟩

theorem isInner_of_alike {label label' : List Token} (h : List.Forall₂ Token.Alike label label')
    (hlabel : ∀ t ∈ label, IsInner t) : ∀ t ∈ label', IsInner t := by
  induction h with
  | nil => exact List.forall_mem_nil _
  | cons ht _ ih =>
    obtain ⟨hfirst, hmore⟩ := List.forall_mem_cons.mp hlabel
    refine List.forall_mem_cons.mpr ⟨?_, ih hmore⟩
    rwa [IsInner, ht.kind_eq]

/-- A number at the end of an expression is read alone. -/
theorem value_number (s : Setting) (depth : Nat) {t : Token} (ht : t.kind = .number)
    {tail : List Token} (htail : Stops tail) :
    (value s depth (t :: tail)).Yields (some (.number t.value)) tail [] :=
  value_yields (operand_number ht tail) (chain_stops s depth _ _ _ htail)

/-! ## The keyword behind a label -/

/-- What was read in front of a keyword begins with all the tokens before the first keyword. -/
theorem exists_append_of_flow {front tail used rest : List Token} {k : Token}
    (h : front ++ tail = used ++ k :: rest) (hfront : ∀ t ∈ front, t.kind ≠ .flow)
    (hk : k.kind = .flow) : ∃ more, used = front ++ more ∧ tail = more ++ k :: rest := by
  rcases List.append_eq_append_iff.mp h with ⟨more, hused, htail⟩ | ⟨more, hfront', htail⟩
  · exact ⟨more, hused, htail⟩
  · cases more with
    | nil => exact ⟨[], by simpa using hfront'.symm, by simpa using htail.symm⟩
    | cons t more =>
      obtain rfl : k = t := (List.cons.inj htail).1
      exact absurd hk (hfront k (hfront' ▸ List.mem_append_right _ List.mem_cons_self))

/-- If a keyword is left behind a label, it is the first one, since no expression reaches beyond a
line. -/
theorem rest_eq_of_flow (s : Setting) {label inner behind rest : List Token} {k e : Token}
    (hlabel : ∀ t ∈ label, IsInner t) (hinner : ∀ t ∈ inner, t.kind ≠ .flow)
    (he : e.kind = .endOfLine) (h : Spans (label ++ k :: (inner ++ e :: behind)) rest)
    (hrest : (current s rest).kind = .flow) : rest = k :: (inner ++ e :: behind) := by
  obtain ⟨t, more, rfl, ht⟩ := eq_cons_of_kind s hrest (by decide)
  obtain ⟨used, heq, hused⟩ := h
  obtain ⟨us, rfl, hfirst⟩ := exists_append_of_flow heq (fun u hu => (hlabel u hu).1) ht
  cases us with
  | nil => exact hfirst.symm
  | cons u us =>
    obtain ⟨vs, rfl, hsecond⟩ := exists_append_of_flow (List.cons.inj hfirst).2 hinner ht
    cases vs with
    | nil =>
      obtain rfl := (List.cons.inj hsecond).1
      rw [he] at ht
      cases ht
    | cons v vs =>
      obtain rfl := (List.cons.inj hsecond).1
      exact absurd he (hused e (by simp))

end Parse

/-- No block that is left open is reported of an expression. -/
theorem Told.Expression.ne_unmatchedBlock {n : Option Node} {rs : List Report}
    (h : Told.Expression n rs) : ∀ r ∈ rs, r.kind ≠ .unmatchedBlock := by
  induction h with
  | missing => exact List.forall_mem_singleton.mpr nofun
  | number | parameter | word | bareCall => exact List.forall_mem_nil _
  | call _ _ ih | unary _ _ ih | closed _ ih => exact ih
  | binary _ _ _ ihl ihr => exact List.forall_mem_append.mpr ⟨ihl, ihr⟩
  | unclosed _ _ ih =>
    exact List.forall_mem_append.mpr ⟨ih, List.forall_mem_singleton.mpr nofun⟩
  | cutOff _ _ hr => exact List.forall_mem_singleton.mpr (by rw [hr.kind_eq]; decide)

/-! ## Conditionals -/

/-- The tokens of a conditional around its two labels: the o-word, the keyword, the condition and
the line break of its first line, and the o-word, the keyword and the line break of its last. -/
structure Conditional where
  word : Token
  keyword : Token
  openBracket : Token
  condition : Token
  closeBracket : Token
  lineBreak : Token
  lastWord : Token
  lastKeyword : Token
  lastBreak : Token
  word_isOWord : Parse.isOWord word = true
  keyword_kind : keyword.kind = .flow
  keyword_upper : Text.upper keyword.value = "IF"
  openBracket_kind : openBracket.kind = .openBracket
  condition_kind : condition.kind = .number
  closeBracket_kind : closeBracket.kind = .closeBracket
  lineBreak_kind : lineBreak.kind = .endOfLine
  lastWord_isOWord : Parse.isOWord lastWord = true
  lastKeyword_kind : lastKeyword.kind = .flow
  lastKeyword_upper : Text.upper lastKeyword.value = "ENDIF"
  lastBreak_kind : lastBreak.kind = .endOfLine

namespace Conditional

open Parse

variable (c : Conditional)

/-- The tokens behind the second label. -/
def ending : List Token := [c.lastKeyword, c.lastBreak]

/-- The last line. -/
def closingLine (label' : List Token) : List Token :=
  c.lastWord :: (label' ++ c.ending)

/-- The tokens behind the first label. -/
def behind (label' : List Token) : List Token :=
  c.keyword :: ([c.openBracket, c.condition, c.closeBracket] ++ c.lineBreak :: c.closingLine label')

/-- The tokens of the conditional with its two labels. -/
def tokens (label label' : List Token) : List Token := c.word :: (label ++ c.behind label')

/-- The setting in which the conditional is read. -/
def setting (maxDepth : Int) (label label' : List Token) : Setting :=
  endedSetting (c.tokens label label') (lastLine (c.tokens label label')) maxDepth

/-- The label of the first line as it is read. -/
def opening (maxDepth : Int) (label label' : List Token) :
    Parsed (Option Node) (label ++ c.behind label') :=
  value (c.setting maxDepth label label') 0 (label ++ c.behind label')

/-- The label of the last line as it is read, one level deeper. -/
def closing (maxDepth : Int) (label label' : List Token) :
    Parsed (Option Node) (label' ++ c.ending) :=
  value (c.setting maxDepth label label') 1 (label' ++ c.ending)

/-- The condition as it is read. -/
def conditionNode : Node := .bracketed (some (.number c.condition.value)) true

/-- The program is that of a conditional which the second label closes, and no block that is left
open is reported. -/
def Closed (program : Program) (reports : List Report) : Prop :=
  (∃ label label', program.statements =
    [some (.block "IF" (some (.header c.word.value label "IF" (some c.conditionNode)))
        [some (.endOfLine c.lineBreak.value)]
        (some (.header c.lastWord.value label' "ENDIF" none))),
      some (.endOfLine c.lastBreak.value)]) ∧
    ∀ r ∈ reports, r.kind ≠ .unmatchedBlock

variable {c} {s : Setting} {label label' : List Token} {n : Option Node}

theorem kind_ne_endOfFile (hlabel : ∀ t ∈ label, IsInner t) (hlabel' : ∀ t ∈ label', IsInner t) :
    ∀ t ∈ c.tokens label label', t.kind ≠ .endOfFile := by
  have hword : c.word.kind ≠ .endOfFile := by rw [isOWord_kind c.word_isOWord]; decide
  have hword' : c.lastWord.kind ≠ .endOfFile := by rw [isOWord_kind c.lastWord_isOWord]; decide
  have hinner : ∀ {ts : List Token}, (∀ t ∈ ts, IsInner t) → ∀ t ∈ ts, t.kind ≠ .endOfFile :=
    fun h t ht => (h t ht).2.2
  simp only [tokens, behind, closingLine, ending, List.forall_mem_cons, List.forall_mem_append,
    c.keyword_kind, c.openBracket_kind, c.condition_kind, c.closeBracket_kind, c.lineBreak_kind,
    c.lastKeyword_kind, c.lastBreak_kind]
  exact ⟨hword, hinner hlabel, by decide, ⟨by decide, by decide, by decide, List.forall_mem_nil _⟩,
    by decide, hword', hinner hlabel', by decide, by decide, List.forall_mem_nil _⟩

theorem stops_behind : Stops (c.behind label') := fun _ ht => by
  cases ht
  exact .inr c.keyword_kind

theorem stops_ending : Stops c.ending := fun _ ht => by
  cases ht
  exact .inr c.lastKeyword_kind

/-- The condition is read whole. -/
theorem condition_yields (hd : 0 < s.maxDepth) (rest : List Token) :
    (optionalBracket s 0 ([c.openBracket, c.condition, c.closeBracket] ++ rest)).Yields
      (some c.conditionNode) rest [] := by
  have hinner : (value s 1 (c.condition :: c.closeBracket :: rest)).Yields
      (some (.number c.condition.value)) (c.closeBracket :: rest) [] :=
    value_number s 1 c.condition_kind fun _ ht => by cases ht; exact .inl c.closeBracket_kind
  obtain ⟨_, hinner⟩ := hinner.exists_eq
  have hopened : (opened s 0 c.openBracket (c.condition :: c.closeBracket :: rest)).Yields
      c.conditionNode rest [] := by
    rw [opened, if_neg (by simpa using hd), enclosed, hinner]
    dsimp only
    rw [expect_cons_of_eq s c.closeBracket_kind]
    exact ⟨rfl, rfl, rfl⟩
  rw [opened_eq_bracketed s 0 c.openBracket_kind] at hopened
  rw [optionalBracket, if_pos (by exact c.openBracket_kind)]
  exact hopened.map some

/-- If the first label is read up to the keyword, the conditional is a block, the line break of its
first line the first statement in it. -/
theorem exists_block (hd : 0 < s.maxDepth)
    (hrounds : ((c.tokens label label').length : Int) < s.maxRounds)
    (hopen : (value s 0 (label ++ c.behind label')).rest = c.behind label') :
    ∃ p items result rest reports, statement s 0 (c.tokens label label') = .ok p ∧
      Course (blockTurn s 0 (value s 0 (label ++ c.behind label')).value "ENDIF")
        (c.closingLine label') items result rest reports ∧
      p.Yields (.block "IF" (some (.header c.word.value
            (value s 0 (label ++ c.behind label')).value "IF" (some c.conditionNode)))
          (some (.endOfLine c.lineBreak.value) :: items.map some) result) rest
        ((value s 0 (label ++ c.behind label')).reports ++ (reports ++ unclosed c.word
          (value s 0 (label ++ c.behind label')).value "IF" "ENDIF" result)) := by
  have hlabel := (@value_reads s True 0 (label ++ c.behind label') fun _ => trivial).label_eq_ok
  obtain ⟨items, result, rest, reports, hcourse⟩ :=
    exists_course s 0 hlabel "ENDIF" (c.closingLine label')
  have hinside := Course.item (blockTurn_lineBreak c.lineBreak_kind (c.closingLine label'))
    (Nat.lt_succ_self _) hcourse
  have hclose : Keyword.closing? (Text.upper c.keyword.value) = some "ENDIF" := by
    rw [c.keyword_upper]
    decide
  have hshort : ((c.lineBreak :: c.closingLine label').length : Int) < s.maxRounds := by
    simp only [tokens, behind, List.length_cons, List.length_append] at hrounds ⊢
    omega
  obtain ⟨p, hp, hyields⟩ := statement_block c.word_isOWord ⟨rfl, hopen, rfl⟩ c.keyword_kind hclose
    (by simpa using hd) (condition_yields hd _) hinside hshort
  rw [c.keyword_upper] at hyields
  exact ⟨p, items, result, rest, reports, hp, hcourse, hyields⟩

/-- If the first label is not read up to the keyword, the first statement is no block. -/
theorem exists_bare (hopen : (current s (value s 0 (label ++ c.behind label')).rest).kind ≠ .flow) :
    ∃ p header line, statement s 0 (c.tokens label label') = .ok p ∧
      p.value = .oStatement header line := statement_bare c.word_isOWord hopen

/-! ## The last line -/

variable {items : List Node} {result : Option Node} {rest : List Token} {reports : List Report}

theorem current_closingLine (s : Setting) :
    (current s (c.closingLine label')).kind ≠ .endOfFile := by
  show c.lastWord.kind ≠ .endOfFile
  rw [isOWord_kind c.lastWord_isOWord]
  decide

/-- Whether the last line closes the block is seen from the labels, if the second is read up to the
keyword. -/
theorem closesHere_closingLine (hclose : (value s 1 (label' ++ c.ending)).rest = c.ending) :
    closesHere s 1 n "ENDIF" (c.closingLine label') =
      labelsMatch n (value s 1 (label' ++ c.ending)).value := by
  have key := @closesHere_cons s 1 n _ c.lastWord c.lastKeyword _ _ _ c.lastWord_isOWord
    ⟨rfl, hclose, rfl⟩ c.lastKeyword_kind
  rwa [c.lastKeyword_upper] at key

/-- If the labels match, the last line closes the block. -/
theorem course_closed (hclose : (value s 1 (label' ++ c.ending)).rest = c.ending)
    (hmatch : labelsMatch n (value s 1 (label' ++ c.ending)).value = .ok true)
    (h : Course (blockTurn s 0 n "ENDIF") (c.closingLine label') items result rest reports) :
    items = [] ∧ rest = [c.lastBreak] ∧ reports = (value s 1 (label' ++ c.ending)).reports ∧
      result = some (.header c.lastWord.value (value s 1 (label' ++ c.ending)).value "ENDIF"
        none) := by
  have hnone : (optionalBracket s 1 [c.lastBreak]).Yields none [c.lastBreak] [] := by
    rw [optionalBracket, if_neg (by simp [c.lastBreak_kind])]
    exact ⟨rfl, rfl, rfl⟩
  have hheader := @closingHeader_yields s 1 _ c.lastWord c.lastKeyword _ _ _ _ _ _
    ⟨rfl, hclose, rfl⟩ hnone
  rw [c.lastKeyword_upper, List.append_nil] at hheader
  have hcloses := (closesHere_closingLine hclose).trans hmatch
  have hturn := blockTurn_closed (current_closingLine s) hcloses
  cases h with
  | done hturn' =>
    cases hturn.symm.trans hturn'
    exact ⟨rfl, hheader.rest_eq, hheader.reports_eq, congrArg some hheader.value_eq⟩
  | item hturn' _ _ => cases hturn.symm.trans hturn'

/-- If the last line does not close the block, it belongs to it. -/
theorem course_open (hn : ∃ text, Node.label n = .ok text)
    (hopen : closesHere s 1 n "ENDIF" (c.closingLine label') ≠ .ok true)
    (h : Course (blockTurn s 0 n "ENDIF") (c.closingLine label') items result rest reports) :
    items ≠ [] := by
  obtain ⟨closes, hcloses⟩ := closesHere_eq_ok s 1 hn "ENDIF" (c.closingLine label')
  obtain rfl : closes = false := Bool.eq_false_iff.mpr fun h => hopen (h ▸ hcloses)
  obtain ⟨p, hp, -⟩ := @statement_reads s True 1 _ (@current_closingLine c label' s)
  have hturn := blockTurn_open (current_closingLine s) hcloses hp
  cases h with
  | done hturn' => cases hturn.symm.trans hturn'
  | item _ _ _ => exact List.cons_ne_nil _ _

/-- If the labels do not match, nothing closes the block. -/
theorem course_unmatched (hrounds : 1 < s.maxRounds)
    (hclose : (value s 1 (label' ++ c.ending)).rest = c.ending)
    (hmatch : labelsMatch n (value s 1 (label' ++ c.ending)).value = .ok false)
    (h : Course (blockTurn s 0 n "ENDIF") (c.closingLine label') items result rest reports) :
    result = none := by
  have hcommands : (commands s 1 [c.lastBreak]).Yields [] [c.lastBreak] [] :=
    commands_nil (by simp [endsCommands, c.lastBreak_kind]) hrounds
  obtain ⟨p, hp, hyields⟩ := @statement_flat s 1 _ _ c.lastWord c.lastKeyword _ _ _ _
    c.lastWord_isOWord ⟨rfl, hclose, rfl⟩ c.lastKeyword_kind (by rw [c.lastKeyword_upper]; decide)
    (by rw [c.lastKeyword_upper]; decide) _ hcommands
  have hopen := (closesHere_closingLine hclose).trans hmatch
  have hline := blockTurn_open (current_closingLine s) hopen hp
  cases h with
  | done hturn => cases hline.symm.trans hturn
  | item hturn _ hmore =>
    cases hline.symm.trans hturn
    rw [hyields.rest_eq] at hmore
    have hbreak := @blockTurn_lineBreak s 0 n "ENDIF" _ c.lastBreak_kind []
    cases hmore with
    | done hturn => cases hbreak.symm.trans hturn
    | item hturn _ hmore =>
      cases hbreak.symm.trans hturn
      have hend := blockTurn_nil s 0 n "ENDIF"
      cases hmore with
      | done hturn =>
        cases hend.symm.trans hturn
        rfl
      | item hturn _ _ => cases hend.symm.trans hturn

/-! ## Programs -/

variable {nodes : List Node}

/-- A conditional is closed if both labels are read up to their keywords, and match. -/
theorem closed_of_labelsMatch (hd : 0 < s.maxDepth)
    (hrounds : ((c.tokens label label').length : Int) < s.maxRounds)
    (hsteps : Steps s (c.tokens label label') nodes reports)
    (hopen : (value s 0 (label ++ c.behind label')).rest = c.behind label')
    (hclose : (value s 1 (label' ++ c.ending)).rest = c.ending)
    (hmatch : labelsMatch (value s 0 (label ++ c.behind label')).value
      (value s 1 (label' ++ c.ending)).value = .ok true) :
    c.Closed ⟨nodes.map some⟩ reports := by
  obtain ⟨p, items, result, rest, rs, hp, hcourse, hyields⟩ := exists_block hd hrounds hopen
  obtain ⟨rfl, rfl, rfl, rfl⟩ := course_closed hclose hmatch hcourse
  cases hsteps with
  | cons _ hp' _ hmore =>
    cases hp.symm.trans hp'
    have hbreak : Steps s [c.lastBreak] [.endOfLine c.lastBreak.value] [] :=
      .lineBreak c.lastBreak_kind .nil
    rw [hyields.rest_eq] at hmore
    obtain ⟨rfl, rfl⟩ := hmore.unique hbreak
    refine ⟨⟨_, _, by rw [hyields.value_eq]; rfl⟩, ?_⟩
    rw [hyields.reports_eq]
    simp only [unclosed, List.append_nil, List.forall_mem_append]
    exact ⟨(value_told s 0 _).ne_unmatchedBlock, (value_told s 1 _).ne_unmatchedBlock⟩

/-- In a closed conditional, both labels are read up to their keywords, and match. -/
theorem labelsMatch_of_closed (hd : 0 < s.maxDepth)
    (hrounds : ((c.tokens label label').length : Int) < s.maxRounds)
    (hlabel : ∀ t ∈ label, IsInner t) (hlabel' : ∀ t ∈ label', IsInner t)
    (hsteps : Steps s (c.tokens label label') nodes reports)
    (h : c.Closed ⟨nodes.map some⟩ reports) :
    (value s 0 (label ++ c.behind label')).rest = c.behind label' ∧
      (value s 1 (label' ++ c.ending)).rest = c.ending ∧
      labelsMatch (value s 0 (label ++ c.behind label')).value
        (value s 1 (label' ++ c.ending)).value = .ok true := by
  have hspans : ∀ depth ahead, Spans ahead (value s depth ahead).rest := fun depth ahead =>
    (@value_reads s True depth ahead fun _ => trivial).spans
  have hcondition : ∀ t ∈ [c.openBracket, c.condition, c.closeBracket], t.kind ≠ .flow := by
    simp [c.openBracket_kind, c.condition_kind, c.closeBracket_kind]
  obtain ⟨⟨_, _, hstatements⟩, -⟩ := h
  cases hsteps with
  | cons _ hp hlt hmore =>
    obtain ⟨hfirst, -⟩ := List.cons.inj hstatements
    by_cases hflow : (current s (value s 0 (label ++ c.behind label')).rest).kind = .flow
    · have hopen := rest_eq_of_flow s hlabel hcondition c.lineBreak_kind (hspans 0 _) hflow
      obtain ⟨q, items, result, rest, rs, hq, hcourse, hyields⟩ := exists_block hd hrounds hopen
      cases hq.symm.trans hp
      rw [hyields.value_eq] at hfirst
      have hitems : items = [] := by simpa using (Node.block.inj (Option.some.inj hfirst)).2.2.1
      have hread := (@value_reads s True 0 (label ++ c.behind label') fun _ => trivial).label_eq_ok
      have hcloses : closesHere s 1 (value s 0 (label ++ c.behind label')).value "ENDIF"
          (c.closingLine label') = .ok true := by
        by_contra hne
        exact course_open hread hne hcourse hitems
      obtain ⟨-, hflow', -, hmatch⟩ := closesHere_eq_true hcloses
      exact ⟨hopen, rest_eq_of_flow s hlabel' (List.forall_mem_nil _) c.lastBreak_kind (hspans 1 _)
        hflow', hmatch⟩
    · obtain ⟨q, header, line, hq, hvalue⟩ := exists_bare hflow
      cases hq.symm.trans hp
      rw [hvalue] at hfirst
      cases hfirst

/-- If both labels are read up to their keywords but do not match, it is reported that the block is
left open. -/
theorem exists_unmatchedBlock (hd : 0 < s.maxDepth)
    (hrounds : ((c.tokens label label').length : Int) < s.maxRounds)
    (hsteps : Steps s (c.tokens label label') nodes reports)
    (hopen : (value s 0 (label ++ c.behind label')).rest = c.behind label')
    (hclose : (value s 1 (label' ++ c.ending)).rest = c.ending)
    (hmatch : labelsMatch (value s 0 (label ++ c.behind label')).value
      (value s 1 (label' ++ c.ending)).value = .ok false) :
    ∃ r ∈ reports, r.kind = .unmatchedBlock := by
  have hlong : 1 < s.maxRounds := by
    simp only [tokens, behind, List.length_cons, List.length_append] at hrounds
    omega
  obtain ⟨p, items, result, rest, rs, hp, hcourse, hyields⟩ := exists_block hd hrounds hopen
  obtain rfl := course_unmatched hlong hclose hmatch hcourse
  cases hsteps with
  | cons _ hp' _ _ =>
    cases hp.symm.trans hp'
    have hunclosed : ∃ r ∈ unclosed c.word (value s 0 (label ++ c.behind label')).value "IF" "ENDIF"
        none, r.kind = .unmatchedBlock := ⟨_, List.mem_singleton_self _, rfl⟩
    obtain ⟨r, hr, hk⟩ := hunclosed
    refine ⟨r, List.mem_append_left _ ?_, hk⟩
    rw [hyields.reports_eq]
    exact List.mem_append_right _ (List.mem_append_right _ hr)

end Conditional

/-- A conditional is closed exactly if its labels are read up to their keywords, the first at the
depth of the program and the second one level deeper, and match. Of a label of which nothing is
reported if the limit allows it, the second reading keeps no more operators than the first; the
conditional is closed if it keeps as many, and else it is reported that it is left open. -/
theorem parse_conditional (c : Conditional) {maxDepth : Int} (hdepth : 1 ≤ maxDepth)
    {label label' : List Token} (hwhole : Parse.Whole label)
    (halike : List.Forall₂ Token.Alike label label') :
    ∃ program reports, parse (c.tokens label label') ⟨none, maxDepth⟩ = .ok (program, reports) ∧
      (c.Closed program reports ↔
        (c.opening maxDepth label label').rest = c.behind label' ∧
        (c.closing maxDepth label label').rest = c.ending ∧
        labelsMatch (c.opening maxDepth label label').value
          (c.closing maxDepth label label').value = .ok true) ∧
      (Parse.Faultless label →
        operatorCount? (c.closing maxDepth label label').value ≤
          operatorCount? (c.opening maxDepth label label').value ∧
        (c.Closed program reports ↔ operatorCount? (c.closing maxDepth label label').value =
          operatorCount? (c.opening maxDepth label label').value) ∧
        (operatorCount? (c.closing maxDepth label label').value <
            operatorCount? (c.opening maxDepth label label').value →
          ∃ r ∈ reports, r.kind = .unmatchedBlock)) := by
  have hinner := hwhole.isInner
  have hinner' := Parse.isInner_of_alike halike hinner
  obtain ⟨nodes, reports, hsteps, hparse⟩ :=
    exists_steps_parse (Conditional.kind_ne_endOfFile (c := c) hinner hinner') maxDepth
  have hrounds := length_lt_maxRounds (c.tokens label label') (lastLine (c.tokens label label'))
    maxDepth
  have hd : 0 < (c.setting maxDepth label label').maxDepth := hdepth
  have hclosed : c.Closed ⟨nodes.map some⟩ reports ↔
      (c.opening maxDepth label label').rest = c.behind label' ∧
      (c.closing maxDepth label label').rest = c.ending ∧
      labelsMatch (c.opening maxDepth label label').value
        (c.closing maxDepth label label').value = .ok true :=
    ⟨Conditional.labelsMatch_of_closed hd hrounds hinner hinner' hsteps,
      fun ⟨hopen, hclose, hmatch⟩ =>
        Conditional.closed_of_labelsMatch hd hrounds hsteps hopen hclose hmatch⟩
  refine ⟨_, _, hparse, hclosed, fun hfaultless => ?_⟩
  obtain ⟨ts, us, hts, hus, rfl⟩ := hwhole.sound hfaultless
  obtain ⟨ts', us', rfl, hts', hus'⟩ := Sound.exists_append_of_alike halike
  obtain ⟨hopen, hn⟩ := Parse.value_written (c.setting maxDepth (ts ++ us) (ts' ++ us')) 0 hts hus
    (@Conditional.stops_behind c (ts' ++ us'))
  obtain ⟨hclose, hm⟩ := Parse.value_written (c.setting maxDepth (ts ++ us) (ts' ++ us')) 1
    (hts.alike hts') (hus.alike hus') (@Conditional.stops_ending c)
  have hcoarser : Node.Coarser (c.opening maxDepth (ts ++ us) (ts' ++ us')).value
      (c.closing maxDepth (ts ++ us) (ts' ++ us')).value :=
    (Parse.value_nearly _ _ (by unfold Setting.room; omega) hts hus hts' hus'
      Conditional.stops_behind Conditional.stops_ending).coarser
  have hmatch := hcoarser.labelsMatch_iff hn hm (Sound.folded_texts_eq halike)
  refine ⟨hcoarser.count_le, ?_, fun hlt => ?_⟩
  · rw [hclosed, hmatch]
    exact ⟨fun h => h.2.2, fun h => ⟨hopen, hclose, h⟩⟩
  · obtain ⟨r, hr⟩ := Parse.labelsMatch_eq_ok hn.label_eq_ok hm.label_eq_ok
    obtain rfl : r = false := Bool.eq_false_iff.mpr fun h =>
      Nat.ne_of_lt hlt (hmatch.mp (h ▸ hr))
    exact Conditional.exists_unmatchedBlock hd hrounds hsteps hopen hclose hr

/-! ## Labels of a single number -/

namespace Conditional

open Parse

/-- A conditional on two lines. -/
def plain : Conditional where
  word := ⟨.word, "o", 1⟩
  keyword := ⟨.flow, "if", 1⟩
  openBracket := ⟨.openBracket, "[", 1⟩
  condition := ⟨.number, "1", 1⟩
  closeBracket := ⟨.closeBracket, "]", 1⟩
  lineBreak := ⟨.endOfLine, "\n", 1⟩
  lastWord := ⟨.word, "o", 2⟩
  lastKeyword := ⟨.flow, "endif", 2⟩
  lastBreak := ⟨.endOfLine, "\n", 2⟩
  word_isOWord := by decide +kernel
  keyword_kind := rfl
  keyword_upper := by decide +kernel
  openBracket_kind := rfl
  condition_kind := rfl
  closeBracket_kind := rfl
  lineBreak_kind := rfl
  lastWord_isOWord := by decide +kernel
  lastKeyword_kind := rfl
  lastKeyword_upper := by decide +kernel
  lastBreak_kind := rfl

end Conditional

/-- A conditional whose labels are a number is closed. -/
theorem parse_conditional_number :
    ∃ program reports, parse (Conditional.plain.tokens [⟨.number, "1", 1⟩] [⟨.number, "1", 2⟩])
      ⟨none, 1⟩ = .ok (program, reports) ∧ Conditional.plain.Closed program reports := by
  have hwhole : Parse.Whole [⟨.number, "1", 1⟩] := ⟨0, fun s _ =>
    (Parse.value_number s 0 rfl fun _ h => by cases h).rest_eq⟩
  have halike : List.Forall₂ Token.Alike [⟨.number, "1", 1⟩] [⟨.number, "1", 2⟩] :=
    .cons ⟨rfl, rfl⟩ .nil
  obtain ⟨program, reports, hparse, hclosed, -⟩ :=
    parse_conditional Conditional.plain (Int.le_refl 1) hwhole halike
  let s := Conditional.plain.setting 1 [⟨.number, "1", 1⟩] [⟨.number, "1", 2⟩]
  have hopening := @Parse.value_number s 0 ⟨.number, "1", 1⟩ rfl _
    (@Conditional.stops_behind Conditional.plain [⟨.number, "1", 2⟩])
  have hclosing := @Parse.value_number s 1 ⟨.number, "1", 2⟩ rfl _
    (@Conditional.stops_ending Conditional.plain)
  have hmatch : labelsMatch (some (.number "1")) (some (.number "1")) = .ok true :=
    (Node.Written.matches (.number ⟨.number, "1", 1⟩) (.number ⟨.number, "1", 2⟩) rfl rfl
      rfl).labelsMatch
  refine ⟨program, reports, hparse, hclosed.mpr ⟨hopening.rest_eq, hclosing.rest_eq, ?_⟩⟩
  exact (congrArg₂ labelsMatch hopening.value_eq hclosing.value_eq).trans hmatch

/-! ## A sum as a label -/

namespace Conditional

open Parse

/-- A sum of three numbers on the given line. -/
def sum (line : Int) : List Token :=
  [⟨.number, "1", line⟩, ⟨.operator, "+", line⟩, ⟨.number, "2", line⟩, ⟨.operator, "+", line⟩,
    ⟨.number, "3", line⟩]

theorem sum_alike (line line' : Int) : List.Forall₂ Token.Alike (sum line) (sum line') := by
  have hsame : ∀ kind text, Token.Alike ⟨kind, text, line⟩ ⟨kind, text, line'⟩ :=
    fun _ _ => ⟨rfl, rfl⟩
  exact .cons (hsame _ _) (.cons (hsame _ _) (.cons (hsame _ _) (.cons (hsame _ _)
    (.cons (hsame _ _) .nil))))

variable {s : Setting} {depth size : Nat} {left n : Option Node} {tail rest : List Token}
  {rs : List Report}

/-- An operator within the limit takes the number behind it, if no other binds tighter. -/
theorem chain_number {t u : Token} (ht : binds t 0 = true) (hu : u.kind = .number)
    (hd : (depth : Int) + size < s.maxDepth)
    (htail : ∀ v ∈ tail.head?, binds v (Keyword.precedence t.value + 1) = false)
    (hmore : (chain s depth (some (.binary t.value left (some (.number u.value))))
      (1 + max size 1) 0 tail).Yields n rest rs) :
    (chain s depth left size 0 (t :: u :: tail)).Yields n rest rs := by
  have hheight : Node.height (some (.number u.value)) = 1 := Node.height_leaf rfl
  refine chain_link ht (link_within (by omega) (operand_number hu tail) (tighten_done htail) ?_)
  rwa [hheight]

/-- An operator beyond the limit takes what there is of the label as text. -/
theorem chain_cut {t u : Token} {ts : List Token} (ht : binds t 0 = true)
    (hts : Sound.Passed (u :: ts)) (htail : Stops tail) (hd : s.maxDepth ≤ (depth : Int) + size) :
    (chain s depth left size 0 (t :: (u :: ts ++ tail))).Yields
      (some (.binary t.value left (some (.unknown (Token.texts (u :: ts)) u.line)))) tail
      [⟨.deepChain s.maxDepth, u.line⟩] :=
  chain_link ht (link_beyond (by omega) (cutOffText_sound s hts htail))

/-- The number in front of the first operator. -/
theorem sum_yields (line : Int)
    (h : (chain s depth (some (.number "1")) 1 0 ((sum line).tail ++ tail)).Yields n rest rs) :
    (value s depth (sum line ++ tail)).Yields n rest rs := by
  rw [← Node.height_leaf (n := .number "1") rfl] at h
  exact value_yields (operand_number (t := ⟨.number, "1", line⟩) rfl _) h

/-- With room for one operator, the second one takes the rest of the sum as text. -/
theorem sum_second (hs : s.maxDepth = (depth : Int) + 2) (line : Int) (htail : Stops tail) :
    (value s depth (sum line ++ tail)).Yields
      (some (.binary "+" (some (.binary "+" (some (.number "1")) (some (.number "2"))))
        (some (.unknown "3" line)))) tail [⟨.deepChain s.maxDepth, line⟩] := by
  have hpassed : Sound.Passed [⟨.number, "3", line⟩] := .single rfl (.inl rfl)
  refine sum_yields line (chain_number (t := ⟨.operator, "+", line⟩) rfl rfl (by omega) ?_ ?_)
  · intro v hv
    cases hv
    rfl
  · exact chain_cut (t := ⟨.operator, "+", line⟩) rfl hpassed htail (by omega)

/-- Without room for an operator, the first one does. -/
theorem sum_first (hs : s.maxDepth = (depth : Int) + 1) (line : Int) (htail : Stops tail) :
    (value s depth (sum line ++ tail)).Yields
      (some (.binary "+" (some (.number "1")) (some (.unknown "2+3" line)))) tail
      [⟨.deepChain s.maxDepth, line⟩] := by
  have hpassed : Sound.Passed
      [⟨.number, "2", line⟩, ⟨.operator, "+", line⟩, ⟨.number, "3", line⟩] :=
    (Sound.Passed.single rfl (.inl rfl)).append ((Sound.Passed.single rfl (by simp)).append
      (.single rfl (.inl rfl)))
  exact sum_yields line (chain_cut (t := ⟨.operator, "+", line⟩) rfl hpassed htail (by omega))

/-- With room for both operators, the sum is read to the end. -/
theorem sum_whole (line : Int) : Whole (sum line) := by
  refine ⟨3, fun s hs => ?_⟩
  have hread := @sum_yields s 0 (some (.binary "+" (some (.binary "+" (some (.number "1"))
    (some (.number "2")))) (some (.number "3")))) [] [] [] line ?_
  · rw [List.append_nil] at hread
    exact hread.rest_eq
  · refine chain_number (t := ⟨.operator, "+", line⟩) rfl rfl (by omega) ?_
      (chain_number (t := ⟨.operator, "+", line⟩) rfl rfl (by omega) (fun v hv => by cases hv)
        (chain_done (fun v hv => by cases hv) _))
    intro v hv
    cases hv
    rfl

/-- The two labels differ in their parentheses. -/
theorem labelsMatch_sum (line line' : Int) :
    labelsMatch (some (.binary "+" (some (.binary "+" (some (.number "1")) (some (.number "2"))))
        (some (.unknown "3" line))))
      (some (.binary "+" (some (.number "1")) (some (.unknown "2+3" line')))) = .ok false := by
  have hunknown : ∀ text line, Node.label (some (.unknown text line)) = .ok text := fun _ _ => by
    simp [Node.label, Style.text, Node.labelStyle]
  have hnumber : ∀ text, Node.label (some (.number text)) = .ok text := fun _ => by
    simp [Node.label, Style.text, Node.labelStyle]
  rw [labelsMatch, Node.label_binary "+" (Node.label_binary "+" (hnumber "1") (hnumber "2"))
    (hunknown "3" line), Node.label_binary "+" (hnumber "1") (hunknown "2+3" line')]
  exact congrArg Except.ok (by decide +kernel)

end Conditional

/-- The conditional whose labels are a sum is left open if only two levels of nesting are
allowed. -/
theorem parse_conditional_unmatched :
    Parse.Whole (Conditional.sum 1) ∧
      List.Forall₂ Token.Alike (Conditional.sum 1) (Conditional.sum 2) ∧
      ∃ program reports, parse (Conditional.plain.tokens (Conditional.sum 1) (Conditional.sum 2))
        ⟨none, 2⟩ = .ok (program, reports) ∧ ∃ r ∈ reports, r.kind = .unmatchedBlock := by
  have hwhole := Conditional.sum_whole 1
  have halike := Conditional.sum_alike 1 2
  obtain ⟨nodes, reports, hsteps, hparse⟩ := exists_steps_parse (Conditional.kind_ne_endOfFile
    (c := Conditional.plain) hwhole.isInner (Parse.isInner_of_alike halike hwhole.isInner)) 2
  let s := Conditional.plain.setting 2 (Conditional.sum 1) (Conditional.sum 2)
  have hopening := @Conditional.sum_second s 0 _ rfl 1
    (@Conditional.stops_behind Conditional.plain (Conditional.sum 2))
  have hclosing := @Conditional.sum_first s 1 _ rfl 2 (@Conditional.stops_ending Conditional.plain)
  have hd : 0 < s.maxDepth := by show (0 : Int) < 2; decide
  have hmatch := Conditional.labelsMatch_sum 1 2
  rw [← hopening.value_eq, ← hclosing.value_eq] at hmatch
  exact ⟨hwhole, halike, _, _, hparse, Conditional.exists_unmatchedBlock hd
    (length_lt_maxRounds _ _ _) hsteps hopening.rest_eq hclosing.rest_eq hmatch⟩

end Gcode
