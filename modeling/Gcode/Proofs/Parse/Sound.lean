import Gcode.Proofs.Parse.Told
import Gcode.Proofs.Parse.Yields

/-!
# Sound expressions

An expression is sound if nothing is missing in it: it is made of operands with operators between
them, and its brackets are closed. Text that is cut off in front of a sound expression reaches to
its end, since there is nothing in it that could end a line of commands, and no bracket that closes
another one than its own. What an expression was read from is sound if nothing was reported.

## Main definitions

* `Sound.Operand`, `Sound.Bracket`, `Sound.Operators` — how sound expressions are written.
* `Sound.Passed` — tokens behind which text goes on that is cut off in front of them.
* `Parse.Stops` — tokens that end an expression.

## Main statements

* `Parse.cutOffText_sound`, `Parse.groupText_sound` — text is cut off up to the end of what is
  sound.
* `Parse.value_sound` — an expression of which nothing is reported is sound.
-/

namespace Gcode

open Token (texts)

namespace Sound

/-! ## How sound expressions are written -/

/-- The token is an operand of its own: a number, a parameter, a word or the name of a function. -/
def IsLeaf (t : Token) : Prop :=
  t.kind = .number ∨ t.kind = .parameter ∨ t.kind = .word ∨ t.kind = .function

mutual

/-- The tokens are an operand. -/
inductive Operand : List Token → Prop
  | leaf {t : Token} : IsLeaf t → Parse.isOWord t = false → Operand [t]
  | call {t : Token} {ts : List Token} : t.kind = .function → Bracket ts → Operand (t :: ts)
  | signed {t : Token} {ts : List Token} : Parse.isSign t = true → Operand ts → Operand (t :: ts)
  | bracket {ts : List Token} : Bracket ts → Operand ts

/-- The tokens are an expression in brackets. -/
inductive Bracket : List Token → Prop
  | enclosed {t u : Token} {ts us : List Token} : t.kind = .openBracket → t.value = "[" →
    u.kind = .closeBracket → u.value = "]" → Operand ts → Operators us →
    Bracket (t :: (ts ++ us ++ [u]))

/-- The tokens are operators, each with an operand behind it. -/
inductive Operators : List Token → Prop
  | nil : Operators []
  | cons {t : Token} {ts us : List Token} : Parse.isOperator t = true → Operand ts →
    Operators us → Operators (t :: (ts ++ us))

end

theorem Bracket.exists_cons {ts : List Token} (h : Bracket ts) :
    ∃ t more, ts = t :: more ∧ t.kind = .openBracket := by
  cases h with
  | enclosed ht => exact ⟨_, _, rfl, ht⟩

theorem Operators.append {ts us : List Token} (h : Operators ts) (k : Operators us) :
    Operators (ts ++ us) := by
  match h with
  | .nil => exact k
  | .cons ht ho hmore =>
    rw [List.cons_append, List.append_assoc]
    exact .cons ht ho (hmore.append k)

/-! ## Text that is cut off -/

/-- No equals sign is at hand. -/
def NoAssignAhead (rest : List Token) : Prop := ∀ t ∈ rest.head?, t.kind ≠ .assign

/-- Text that is cut off in front of the tokens goes on behind them, and so does that of a bracket
that was opened before. -/
structure Passed (ts : List Token) : Prop where
  ne_assign : ∀ t ∈ ts, t.kind ≠ .assign
  cutOffText : ∀ (s : Setting) (level : Nat) (rest : List Token), NoAssignAhead rest →
    (Parse.cutOffText s level (ts ++ rest)).Yields
      (texts ts ++ (Parse.cutOffText s level rest).value) (Parse.cutOffText s level rest).rest []
  groupText : ∀ (level : Int) (rest : List Token), 0 < level →
    (Parse.groupText level (ts ++ rest)).Yields
      (texts ts ++ (Parse.groupText level rest).value) (Parse.groupText level rest).rest []

namespace Passed

variable {t u : Token} {ts us : List Token}

theorem nil : Passed [] where
  ne_assign _ ht := by cases ht
  cutOffText s level rest _ := ⟨rfl, rfl, Parse.cutOffText_reports s level rest⟩
  groupText level rest _ := ⟨rfl, rfl, Parse.groupText_reports level rest⟩

theorem append (h : Passed ts) (k : Passed us) : Passed (ts ++ us) where
  ne_assign := List.forall_mem_append.mpr ⟨h.ne_assign, k.ne_assign⟩
  cutOffText s level rest hrest := by
    have hahead : NoAssignAhead (us ++ rest) := by
      intro t ht
      cases us with
      | nil => exact hrest t ht
      | cons u us =>
        obtain rfl : u = t := Option.some.inj ht
        exact k.ne_assign u List.mem_cons_self
    obtain ⟨hvalue, hlast, -⟩ := k.cutOffText s level rest hrest
    obtain ⟨hvalue', hlast', hreports⟩ := h.cutOffText s level (us ++ rest) hahead
    rw [hvalue] at hvalue'
    rw [hlast] at hlast'
    rw [List.append_assoc, Token.texts_append, List.append_assoc]
    exact ⟨hvalue', hlast', hreports⟩
  groupText level rest hlevel := by
    obtain ⟨hvalue, hlast, -⟩ := k.groupText level rest hlevel
    obtain ⟨hvalue', hlast', hreports⟩ := h.groupText level (us ++ rest) hlevel
    rw [hvalue] at hvalue'
    rw [hlast] at hlast'
    rw [List.append_assoc, Token.texts_append, List.append_assoc]
    exact ⟨hvalue', hlast', hreports⟩

/-- A token of an expression that is no bracket. -/
theorem single (ho : Parse.isOWord t = false)
    (ht : t.kind = .number ∨ t.kind = .parameter ∨ t.kind = .word ∨ t.kind = .function ∨
      t.kind = .operator ∨ t.kind = .comparison ∨ t.kind = .logical) : Passed [t] := by
  have hne : t.kind ≠ .openBracket ∧ t.kind ≠ .closeBracket ∧ t.kind ≠ .endOfLine ∧
      t.kind ≠ .endOfFile ∧ t.kind ≠ .flow ∧ t.kind ≠ .comment ∧ t.kind ≠ .assign := by
    rcases ht with ht | ht | ht | ht | ht | ht | ht <;> simp [ht]
  obtain ⟨hopen, hclose, hline, hend, hflow, hcomment, hassign⟩ := hne
  refine ⟨List.forall_mem_singleton.mpr hassign, fun s level rest hrest => ?_,
    fun level rest _ => ?_⟩
  · have hstart : Parse.startsAssignment s (t :: rest) = false := by
      have hnext : (Parse.current s rest).kind ≠ .assign := by
        cases rest with
        | nil => simp [Setting.stop]
        | cons u rest => exact hrest u rfl
      simp [Parse.startsAssignment, hnext]
    rw [List.singleton_append, Parse.cutOffText, if_neg (by
      simp [Parse.endsCommands, hend, hline, hflow, ho, hstart, hcomment, hclose])]
    simp only [if_neg hopen, if_neg hclose]
    refine ⟨?_, rfl, Parse.cutOffText_reports s level rest⟩
    simp [Parsed.behindToken, Parsed.map]
  · rw [List.singleton_append, Parse.groupText, if_neg hline, if_neg hopen, if_neg hclose]
    refine ⟨?_, rfl, Parse.groupText_reports level rest⟩
    simp [Parsed.behindToken, Parsed.map]

/-- Brackets around such tokens. -/
theorem enclosed (ht : t.kind = .openBracket) (hu : u.kind = .closeBracket) (h : Passed ts) :
    Passed (t :: (ts ++ [u])) where
  ne_assign := by
    simp only [List.forall_mem_cons, List.forall_mem_append, ht, hu]
    exact ⟨by decide, h.ne_assign, by decide, List.forall_mem_nil _⟩
  cutOffText s level rest hrest := by
    have hnext : NoAssignAhead (u :: rest) := fun v hv => by
      obtain rfl : u = v := Option.some.inj hv
      rw [hu]
      decide
    have hclose : (Parse.cutOffText s (level + 1) (u :: rest)).Yields
        (u.value ++ (Parse.cutOffText s level rest).value)
        (Parse.cutOffText s level rest).rest [] := by
      rw [Parse.cutOffText, if_neg (by
        simp [Parse.endsCommands, Parse.isOWord, Parse.startsAssignment, hu])]
      refine ⟨?_, ?_, ?_⟩ <;>
        simp [Parsed.behindToken, Parsed.map, hu, Parse.cutOffText_reports]
    obtain ⟨hvalue, hlast, hreports⟩ := h.cutOffText s (level + 1) (u :: rest) hnext
    rw [hclose.value_eq] at hvalue
    rw [hclose.rest_eq] at hlast
    rw [List.cons_append, List.append_assoc, List.singleton_append, Parse.cutOffText, if_neg (by
      simp [Parse.endsCommands, Parse.isOWord, Parse.startsAssignment, ht])]
    simp only [if_pos ht]
    refine ⟨?_, hlast, hreports⟩
    simp [Parsed.behindToken, Parsed.map, hvalue]
  groupText level rest hlevel := by
    have hclose : (Parse.groupText (level + 1) (u :: rest)).Yields
        (u.value ++ (Parse.groupText level rest).value) (Parse.groupText level rest).rest [] := by
      have hlevel : ¬level + 1 = 1 := by omega
      rw [Parse.groupText, if_neg (by simp [hu]), if_neg (by simp [hu]), if_pos hu,
        if_neg hlevel, Int.add_sub_cancel]
      exact ⟨rfl, rfl, Parse.groupText_reports level rest⟩
    obtain ⟨hvalue, hlast, hreports⟩ := h.groupText (level + 1) (u :: rest) (by omega)
    rw [hclose.value_eq] at hvalue
    rw [hclose.rest_eq] at hlast
    rw [List.cons_append, List.append_assoc, List.singleton_append, Parse.groupText,
      if_neg (by simp [ht]), if_pos ht]
    refine ⟨?_, hlast, hreports⟩
    simp [Parsed.behindToken, Parsed.map, hvalue]

end Passed

theorem isOWord_eq_false_of_kind {t : Token} (h : t.kind ≠ .word) : Parse.isOWord t = false := by
  simp [Parse.isOWord, h]

mutual

theorem Operand.passed {ts : List Token} (h : Operand ts) : Passed ts := by
  match h with
  | .leaf ht ho =>
    unfold IsLeaf at ht
    exact .single ho (by tauto)
  | .call ht hb =>
    exact (Passed.single (isOWord_eq_false_of_kind (by simp [ht])) (by simp [ht])).append hb.passed
  | .signed ht ho =>
    rw [Parse.isSign, Bool.and_eq_true, decide_eq_true_eq] at ht
    exact (Passed.single (isOWord_eq_false_of_kind (by simp [ht.1])) (by simp [ht.1])).append
      ho.passed
  | .bracket hb => exact hb.passed

theorem Bracket.passed {ts : List Token} (h : Bracket ts) : Passed ts := by
  match h with
  | .enclosed ht _ hu _ ho hmore => exact .enclosed ht hu (ho.passed.append hmore.passed)

theorem Operators.passed {ts : List Token} (h : Operators ts) : Passed ts := by
  match h with
  | .nil => exact .nil
  | @Operators.cons t _ _ ht ho hmore =>
    simp only [Parse.isOperator, Bool.or_eq_true, decide_eq_true_eq] at ht
    have hword : t.kind ≠ .word := fun hk => by simp [hk] at ht
    have hfirst := Passed.single (isOWord_eq_false_of_kind hword) (by tauto)
    exact hfirst.append (ho.passed.append hmore.passed)

end

/-- The token is no o-word, and if it is a bracket, it is written as one. -/
structure Proper (t : Token) : Prop where
  isOWord_eq : Parse.isOWord t = false
  open_value : t.kind = .openBracket → t.value = "["
  close_value : t.kind = .closeBracket → t.value = "]"

end Sound

namespace Parse

variable (s : Setting)

/-- An expression ends in front of the tokens. -/
def Stops (tail : List Token) : Prop := ∀ t ∈ tail.head?, t.kind = .closeBracket ∨ t.kind = .flow

theorem Stops.noOperatorAhead {tail : List Token} (h : Stops tail) : NoOperatorAhead tail := by
  intro t ht
  rcases h t ht with hk | hk <;> simp [isOperator, hk]

theorem Stops.noAssignAhead {tail : List Token} (h : Stops tail) : Sound.NoAssignAhead tail := by
  intro t ht
  rcases h t ht with hk | hk <;> simp [hk]

theorem chain_stops (depth : Nat) (left : Option Node) (size : Nat) (least : Int)
    {tail : List Token} (h : Stops tail) :
    (chain s depth left size least tail).Yields left tail [] :=
  chain_done (fun t ht => by simp [binds, h.noOperatorAhead t ht]) size

theorem tighten_stops (depth : Nat) (right : Option Node) (bound : Int) {tail : List Token}
    (h : Stops tail) : (tighten s depth right bound tail).Yields right tail [] :=
  tighten_done fun t ht => by simp [binds, h.noOperatorAhead t ht]

theorem cutOffText_of_stops {tail : List Token} (h : Stops tail) :
    (cutOffText s 0 tail).Yields [] tail [] := by
  match tail with
  | [] => exact ⟨rfl, rfl, rfl⟩
  | t :: rest =>
    have hk := h t rfl
    rw [cutOffText, if_pos (by rcases hk with hk | hk <;> simp [endsCommands, hk])]
    exact ⟨rfl, rfl, rfl⟩

/-- Text is cut off up to the end of the expression. -/
theorem cutOffText_sound {ts tail : List Token} (h : Sound.Passed ts) (hstops : Stops tail) :
    (cutOffText s 0 (ts ++ tail)).Yields (texts ts) tail [] := by
  obtain ⟨hvalue, hrest, -⟩ := cutOffText_of_stops s hstops
  have key := h.cutOffText s 0 tail hstops.noAssignAhead
  rwa [hvalue, hrest, List.append_nil] at key

/-- The text of brackets reaches up to the closing one. -/
theorem groupText_sound {ts : List Token} (h : Sound.Bracket ts) (rest : List Token) :
    (groupText 0 (ts ++ rest)).Yields (texts ts) rest [] := by
  match h with
  | @Sound.Bracket.enclosed t u ts us ht _ hu _ ho hmore =>
    have hclose : (groupText 1 (u :: rest)).Yields u.value rest [] := by
      rw [groupText, if_neg (by simp [hu]), if_neg (by simp [hu]), if_pos hu]
      exact ⟨rfl, rfl, rfl⟩
    obtain ⟨hvalue, hrest, hreports⟩ :=
      (ho.passed.append hmore.passed).groupText 1 (u :: rest) Int.one_pos
    rw [hclose.value_eq] at hvalue
    rw [hclose.rest_eq] at hrest
    rw [List.cons_append, List.append_assoc, List.singleton_append, groupText,
      if_neg (by simp [ht]), if_pos ht, Int.zero_add]
    refine ⟨?_, hrest, hreports⟩
    simp [Parsed.behindToken, Parsed.map, hvalue]

/-! ## What is read without a report -/

open Sound (Operators Proper)

theorem signs_sound {ahead ts : List Token} {rest : List Token} (h : Sound.Operand ts)
    (hrest : (signs ahead).rest = ts ++ rest) : ∃ us, Sound.Operand us ∧ ahead = us ++ rest := by
  induction ahead with
  | nil => exact ⟨ts, h, hrest⟩
  | cons t ahead ih =>
    rw [signs] at hrest
    by_cases ht : isSign t = true
    · rw [if_pos ht] at hrest
      obtain ⟨us, hus, hahead⟩ := ih hrest
      exact ⟨t :: us, .signed ht hus, congrArg (t :: ·) hahead⟩
    · rw [if_neg ht] at hrest
      exact ⟨ts, h, hrest⟩

mutual

/-- An expression of which nothing is reported is sound. -/
theorem value_sound (depth : Nat) {ahead : List Token} (hproper : ∀ t ∈ ahead, Proper t)
    (hnone : (value s depth ahead).reports = []) :
    ∃ ts us, Sound.Operand ts ∧ Operators us ∧ ahead = ts ++ us ++ (value s depth ahead).rest := by
  rw [value] at hnone ⊢
  obtain ⟨hleft, hchain⟩ := List.append_eq_nil_iff.mp hnone
  obtain ⟨ts, hts, hahead⟩ := operand_sound depth hproper hleft
  obtain ⟨us, hus, hrest⟩ := chain_sound depth (operand s depth ahead).value
    (Node.height (operand s depth ahead).value) 0
    (fun t ht => hproper t ((operand s depth ahead).suffix.subset ht)) hchain
  refine ⟨ts, us, hts, hus, ?_⟩
  rw [List.append_assoc]
  exact hahead.trans (congrArg (ts ++ ·) hrest)
termination_by (ahead.length, 4)
decreasing_by
  · exact Prod.Lex.right _ (by omega)
  · exact Prod.Lex.right' _ (Parsed.length_rest_le _) (by omega)

theorem chain_sound (depth : Nat) (left : Option Node) (height : Nat) (least : Int)
    {ahead : List Token} (hproper : ∀ t ∈ ahead, Proper t)
    (hnone : (chain s depth left height least ahead).reports = []) :
    ∃ us, Operators us ∧ ahead = us ++ (chain s depth left height least ahead).rest := by
  match ahead with
  | [] =>
    rw [chain]
    exact ⟨[], .nil, rfl⟩
  | t :: rest =>
    rw [chain] at hnone ⊢
    by_cases hb : binds t least = true
    · rw [if_pos hb] at hnone ⊢
      rw [binds, Bool.and_eq_true] at hb
      obtain ⟨us, hus, hrest⟩ := link_sound depth hb.1 left height least
        (fun u hu => hproper u (List.mem_cons_of_mem t hu)) hnone
      exact ⟨us, hus, hrest⟩
    · rw [if_neg hb]
      exact ⟨[], .nil, rfl⟩
termination_by (ahead.length, 3)
decreasing_by exact Prod.Lex.left _ _ (by simp)

theorem link_sound (depth : Nat) {t : Token} (ht : isOperator t = true) (left : Option Node)
    (height : Nat) (least : Int) {ahead : List Token} (hproper : ∀ t ∈ ahead, Proper t)
    (hnone : (link s depth t left height least ahead).reports = []) :
    ∃ us, Operators us ∧ t :: ahead = us ++ (link s depth t left height least ahead).rest := by
  rw [link] at hnone ⊢
  by_cases hd : s.maxDepth ≤ depth + height
  · rw [if_pos hd] at hnone
    cases hnone
  · rw [if_neg hd] at hnone ⊢
    dsimp only [Parsed.behind] at hnone ⊢
    simp only [List.append_eq_nil_iff] at hnone
    obtain ⟨ts, hts, hahead⟩ := operand_sound depth hproper hnone.1.1
    have hproper' : ∀ u ∈ (operand s depth ahead).rest, Proper u :=
      fun u hu => hproper u ((operand s depth ahead).suffix.subset hu)
    obtain ⟨us, hus, hfirst⟩ := tighten_sound depth (operand s depth ahead).value
      (Keyword.precedence t.value) hproper' hnone.1.2
    obtain ⟨ws, hws, hrest⟩ := chain_sound depth _ _ least
      (fun u hu => hproper' u ((tighten s depth (operand s depth ahead).value
        (Keyword.precedence t.value) (operand s depth ahead).rest).suffix.subset hu)) hnone.2
    refine ⟨t :: (ts ++ (us ++ ws)), .cons ht hts (hus.append hws), ?_⟩
    rw [List.cons_append, List.append_assoc, List.append_assoc]
    exact congrArg (t :: ·) (hahead.trans (congrArg (ts ++ ·)
      (hfirst.trans (congrArg (us ++ ·) hrest))))
termination_by (ahead.length, 5)
decreasing_by
  · exact Prod.Lex.right _ (by omega)
  · exact Prod.Lex.right' _ (Parsed.length_rest_le _) (by omega)
  · refine Prod.Lex.right' _ ?_ (by omega)
    exact Nat.le_trans (Parsed.length_rest_le _) (Parsed.length_rest_le _)

theorem tighten_sound (depth : Nat) (right : Option Node) (bound : Int) {ahead : List Token}
    (hproper : ∀ t ∈ ahead, Proper t) (hnone : (tighten s depth right bound ahead).reports = []) :
    ∃ us, Operators us ∧ ahead = us ++ (tighten s depth right bound ahead).rest := by
  match ahead with
  | [] =>
    rw [tighten]
    exact ⟨[], .nil, rfl⟩
  | t :: rest =>
    rw [tighten] at hnone ⊢
    by_cases hb : (isOperator t && bound < (Keyword.precedence t.value : Int)) = true
    · rw [if_pos hb] at hnone ⊢
      rw [Bool.and_eq_true] at hb
      dsimp only [Parsed.behind, Parsed.behindToken] at hnone ⊢
      rw [List.append_eq_nil_iff] at hnone
      have hproper' : ∀ u ∈ rest, Proper u := fun u hu => hproper u (List.mem_cons_of_mem t hu)
      obtain ⟨us, hus, hfirst⟩ := link_sound depth hb.1 right (Node.height right)
        (Keyword.precedence t.value) hproper' hnone.1
      obtain ⟨ws, hws, hrest⟩ := tighten_sound depth _ bound
        (fun u hu => hproper' u ((link s depth t right (Node.height right)
          (Keyword.precedence t.value) rest).suffix.subset hu)) hnone.2
      refine ⟨us ++ ws, hus.append hws, ?_⟩
      rw [List.append_assoc]
      exact hfirst.trans (congrArg (us ++ ·) hrest)
    · rw [if_neg hb]
      exact ⟨[], .nil, rfl⟩
termination_by (ahead.length, 3)
decreasing_by
  · exact Prod.Lex.left _ _ (by simp)
  · refine Prod.Lex.left _ _ ?_
    exact Nat.lt_succ_of_le (Parsed.length_rest_le _)

theorem operand_sound (depth : Nat) {ahead : List Token} (hproper : ∀ t ∈ ahead, Proper t)
    (hnone : (operand s depth ahead).reports = []) :
    ∃ ts, Sound.Operand ts ∧ ahead = ts ++ (operand s depth ahead).rest := by
  rw [operand] at hnone ⊢
  by_cases hroom : (s.maxDepth - depth).toNat < (signs ahead).value.length
  · simp only [if_pos hroom] at hnone
    dsimp only [Parsed.behind, Parsed.map, Parsed.withReport] at hnone
    simp at hnone
  · simp only [if_neg hroom] at hnone ⊢
    dsimp only [Parsed.behind, Parsed.map] at hnone ⊢
    rw [List.append_eq_nil_iff] at hnone
    obtain ⟨ts, hts, hrest⟩ := primary_sound (depth + (signs ahead).value.length)
      (fun t ht => hproper t ((signs ahead).suffix.subset ht)) hnone.2
    exact signs_sound hts hrest
termination_by (ahead.length, 2)
decreasing_by exact Prod.Lex.right' _ (Parsed.length_rest_le _) (by omega)

theorem primary_sound (depth : Nat) {ahead : List Token} (hproper : ∀ t ∈ ahead, Proper t)
    (hnone : (primary s depth ahead).reports = []) :
    ∃ ts, Sound.Operand ts ∧ ahead = ts ++ (primary s depth ahead).rest := by
  match ahead with
  | [] =>
    rw [primary] at hnone
    cases hnone
  | t :: rest =>
    have hword := (hproper t List.mem_cons_self).isOWord_eq
    unfold primary at hnone ⊢
    revert hnone
    split
    case h_1 hk => exact fun _ => ⟨[t], .leaf (.inl hk) hword, rfl⟩
    case h_2 hk => exact fun _ => ⟨[t], .leaf (.inr (.inl hk)) hword, rfl⟩
    case h_3 hk =>
      intro hnone
      obtain ⟨ts, hts, hrest⟩ := opened_sound depth hk hproper hnone
      exact ⟨ts, .bracket hts, hrest⟩
    case h_4 hk =>
      intro hnone
      cases hr : rest with
      | nil => exact ⟨[t], .leaf (.inr (.inr (.inr hk))) hword, rfl⟩
      | cons u more =>
        rw [hr] at hnone
        dsimp only at hnone ⊢
        by_cases hu : u.kind = .openBracket
        · rw [if_pos hu] at hnone ⊢
          obtain ⟨ts, hts, hrest⟩ := opened_sound depth hu
            (fun v hv => hproper v (List.mem_cons_of_mem t (hr ▸ hv))) hnone
          exact ⟨t :: ts, .call hk hts, congrArg (t :: ·) hrest⟩
        · rw [if_neg hu]
          exact ⟨[t], .leaf (.inr (.inr (.inr hk))) hword, rfl⟩
    case h_5 hk => exact fun _ => ⟨[t], .leaf (.inr (.inr (.inl hk))) hword, rfl⟩
    case h_6 => exact fun hnone => by cases hnone
termination_by (ahead.length, 1)
decreasing_by
  · exact Prod.Lex.right _ (by omega)
  · exact Prod.Lex.left _ _ (by simp [hr])

theorem opened_sound (depth : Nat) {t : Token} (ht : t.kind = .openBracket) {rest : List Token}
    (hproper : ∀ u ∈ t :: rest, Proper u) (hnone : (opened s depth t rest).reports = []) :
    ∃ ts, Sound.Bracket ts ∧ t :: rest = ts ++ (opened s depth t rest).rest := by
  rw [opened] at hnone ⊢
  by_cases hd : s.maxDepth ≤ depth
  · rw [if_pos hd] at hnone
    cases hnone
  · rw [if_neg hd, enclosed] at hnone ⊢
    dsimp only [Parsed.behind, Parsed.behindToken, Parsed.map] at hnone ⊢
    rw [List.append_eq_nil_iff] at hnone
    have hproper' : ∀ u ∈ rest, Proper u := fun u hu => hproper u (List.mem_cons_of_mem t hu)
    obtain ⟨ts, us, hts, hus, hrest⟩ := value_sound (depth + 1) hproper' hnone.1
    have hsuffix := (value s (depth + 1) rest).suffix
    obtain ⟨-, hclose⟩ := hnone
    generalize (value s (depth + 1) rest).rest = behind at hrest hsuffix hclose ⊢
    by_cases hk : (current s behind).kind = .closeBracket
    · obtain ⟨u, behind, rfl, hu⟩ := eq_cons_of_kind s hk (by decide)
      rw [expect_cons_of_eq s hu]
      refine ⟨t :: (ts ++ us ++ [u]), .enclosed ht ((hproper t List.mem_cons_self).open_value ht)
        hu ((hproper' u (hsuffix.subset List.mem_cons_self)).close_value hu) hts hus, ?_⟩
      rw [hrest]
      simp [advance, Parsed.map]
    · rw [expect, if_neg hk] at hclose
      cases hclose
termination_by (rest.length + 1, 0)
decreasing_by exact Prod.Lex.left _ _ (by simp)

end

end Parse

end Gcode
