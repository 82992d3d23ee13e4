import Cb.Proofs.RuleLogic

/-! How a reader moves. A position is later than another one if it comes after it and leaves fewer
characters to read; every move of a reader but those to a checkpoint stays or goes to a later
position, and going back to a checkpoint arrives exactly there. -/

namespace Cb

theorem Position.before_trans {p q r : Position} (first : p.before q = true) (second : q.before r = true) :
    p.before r = true := by
  simp only [before] at *
  grind

namespace Source

def charactersOf (lines : List Bytes) : Nat := lines.foldr (fun line rest => line.length + 1 + rest) 0

def remaining (source : Source) (pos : Position) : Nat :=
  match source.lines.toList.drop pos.line with
  | [] => 0
  | line :: rest => line.length - pos.column + 1 + charactersOf rest

variable {source : Source} {p q r : Position}

theorem remaining_lineStart (line : Nat) :
    source.remaining ⟨line, 0⟩ = charactersOf (source.lines.toList.drop line) := by
  simp only [remaining]
  split
  · rename_i ended
    simp [ended, charactersOf]
  · rename_i first rest split
    simp [split, charactersOf]

variable {line : Nat} {text : Bytes}

theorem remaining_eq (here : source.lines[line]? = some text) (column : Nat) :
    source.remaining ⟨line, column⟩ = text.length - column + 1 + source.remaining ⟨line + 1, 0⟩ := by
  have inside : line < source.lines.toList.length := by
    simpa using (Array.getElem?_eq_some_iff.mp here).1
  have first : source.lines.toList[line] = text := by
    simpa using (Array.getElem?_eq_some_iff.mp here).2
  rw [remaining_lineStart, remaining, List.drop_eq_getElem_cons inside, first]

theorem remaining_eq_zero (ended : source.lines[line]? = none) (column : Nat) :
    source.remaining ⟨line, column⟩ = 0 := by
  have beyond : source.lines.toList.length ≤ line := by simpa using ended
  rw [remaining, List.drop_eq_nil_of_le beyond]

theorem remaining_pos (here : source.lines[pos.line]? = some text) : 0 < source.remaining pos := by
  have counted : source.remaining pos = _ := remaining_eq here pos.column
  omega

theorem charactersOf_drop_le (lines : List Bytes) (count : Nat) :
    charactersOf (lines.drop count) ≤ charactersOf lines := by
  induction lines generalizing count with
  | nil => simp
  | cons line rest ih =>
    cases count with
    | zero => exact Nat.le_refl _
    | succ count =>
      have fewer := ih count
      simp only [List.drop_succ_cons, charactersOf, List.foldr_cons] at fewer ⊢
      omega

theorem remaining_le_size (source : Source) (pos : Position) : source.remaining pos ≤ source.size := by
  have fewer := charactersOf_drop_le source.lines.toList pos.line
  rw [source.size_eq]
  change _ ≤ charactersOf source.lines.toList
  simp only [remaining]
  split
  · exact Nat.zero_le _
  · rename_i line rest split
    rw [split] at fewer
    simp only [charactersOf, List.foldr_cons] at fewer ⊢
    omega

def Later (source : Source) (p q : Position) : Prop :=
  p.before q = true ∧ source.remaining q < source.remaining p

def Ahead (source : Source) (p q : Position) : Prop := q = p ∨ source.Later p q

theorem Later.trans (first : source.Later p q) (second : source.Later q r) : source.Later p r :=
  ⟨Position.before_trans first.1 second.1, by have := first.2; have := second.2; omega⟩

theorem Ahead.refl (p : Position) : source.Ahead p p := Or.inl rfl

theorem Later.ahead (later : source.Later p q) : source.Ahead p q := Or.inr later

theorem Ahead.then_later (first : source.Ahead p q) (second : source.Later q r) : source.Later p r := by
  rcases first with rfl | later
  · exact second
  · exact later.trans second

theorem Later.then_ahead (first : source.Later p q) (second : source.Ahead q r) : source.Later p r := by
  rcases second with rfl | later
  · exact first
  · exact first.trans later

theorem Ahead.trans (first : source.Ahead p q) (second : source.Ahead q r) : source.Ahead p r := by
  rcases second with rfl | later
  · exact first
  · exact (first.then_later later).ahead

theorem Ahead.remaining_le (ahead : source.Ahead p q) : source.remaining q ≤ source.remaining p := by
  rcases ahead with rfl | later
  · exact Nat.le_refl _
  · exact Nat.le_of_lt later.2

theorem rounds_le_remaining (goesOn : Nat → Position → Prop)
    (gets_on : ∀ n p, goesOn (n + 1) p → ∃ q, source.Later p q ∧ goesOn n q) (begun : goesOn n p) :
    n ≤ source.remaining p := by
  induction n generalizing p with
  | zero => exact Nat.zero_le _
  | succ n ih =>
    obtain ⟨q, later, rest⟩ := gets_on n p begun
    have fewer := later.2
    have bound := ih rest
    omega

theorem later_nextLine (here : source.lines[line]? = some text) (column : Nat) :
    source.Later ⟨line, column⟩ ⟨line + 1, 0⟩ := by
  refine ⟨by simp [Position.before], ?_⟩
  rw [remaining_eq here column]
  omega

theorem later_column (here : source.lines[line]? = some text) (inside : column + count ≤ text.length)
    (positive : 0 < count) :
    source.Later ⟨line, column⟩ ⟨line, column + count⟩ := by
  refine ⟨by simpa [Position.before] using positive, ?_⟩
  rw [remaining_eq here column, remaining_eq here (column + count)]
  omega

end Source

namespace Reader

variable {source : Source}

theorem note_pos (r : Reader) (reason : Reason) : (r.note reason).pos = r.pos := by
  simp only [note]
  repeat' split
  all_goals rfl

theorem remark_pos (r : Reader) (remark : Remark) : (r.remark remark).pos = r.pos := by
  simp only [Reader.remark]
  split <;> rfl

variable {r : Reader} {c : Checkpoint}

theorem restore_pos (ahead : source.Ahead c.pos r.pos) : (r.restore c).pos = c.pos := by
  simp only [restore]
  split
  · rfl
  · rename_i same
    rcases ahead with here | later
    · exact here
    · exact absurd later.1 same

theorem reject_pos (ahead : source.Ahead c.pos r.pos) (reason : Reason) : (r.reject c reason).pos = c.pos := by
  have noted : source.Ahead c.pos (r.note reason).pos := by rwa [note_pos]
  exact restore_pos noted

theorem restore_pos_or (r : Reader) (c : Checkpoint) : (r.restore c).pos = c.pos ∨ (r.restore c).pos = r.pos := by
  simp only [restore]
  split
  · exact .inl rfl
  · exact .inr rfl

/-- A character other than a line end lies within its line. -/
theorem column_lt (found : source.lines[r.pos.line]? = some text) (notEnd : r.peek source ≠ endOfLine) :
    r.pos.column < text.length := by
  apply Nat.lt_of_not_le
  intro beyond
  apply notEnd
  simp [peek, found, List.getElem?_eq_none beyond]

theorem advance_later (more : r.peek source ≠ endOfFile) : source.Later r.pos (r.advance source).pos := by
  cases found : source.lines[r.pos.line]? with
  | none =>
    refine absurd ?_ more
    simp [peek, found]
  | some text =>
    simp only [advance, if_neg more]
    split
    · exact Source.later_nextLine found _
    · rename_i notEnd
      exact Source.later_column found (column_lt found notEnd) Nat.one_pos

theorem advance_ahead (r : Reader) : source.Ahead r.pos (r.advance source).pos := by
  by_cases ended : r.peek source = endOfFile
  · left
    simp only [advance, if_pos ended]
  · exact (advance_later ended).ahead

theorem skipUpTo_ahead (limit : Nat) (r : Reader) : source.Ahead r.pos (skipUpTo source limit r).2.pos := by
  induction limit generalizing r with
  | zero => exact .refl _
  | succ limit ih =>
    simp only [skipUpTo]
    split
    · exact (advance_ahead r).trans (ih _)
    · exact .refl _

theorem peek_eq_endOfFile (nothing : source.remaining r.pos = 0) : r.peek source = endOfFile := by
  cases found : source.lines[r.pos.line]? with
  | none => simp [peek, found]
  | some text =>
    have more := Source.remaining_pos found
    omega

theorem skipUpTo_stops (enough : source.remaining r.pos ≤ limit) :
    isSkipped ((skipUpTo source limit r).2.peek source) = false := by
  induction limit generalizing r with
  | zero =>
    rw [skipUpTo, peek_eq_endOfFile (Nat.le_zero.mp enough)]
    decide
  | succ limit ih =>
    simp only [skipUpTo]
    split
    · rename_i blank
      have more : r.peek source ≠ endOfFile := by
        intro ended
        rw [ended] at blank
        exact absurd blank (by decide)
      have fewer := (advance_later more).2
      exact ih (by omega)
    · rename_i printed
      simpa using printed

theorem skip_stops (source : Source) (r : Reader) : isSkipped ((r.skip source).2.peek source) = false :=
  skipUpTo_stops (source.remaining_le_size r.pos)

theorem skip_ahead (r : Reader) : source.Ahead r.pos (r.skip source).2.pos := skipUpTo_ahead _ r

theorem test_ahead (code : Nat) (r : Reader) : source.Ahead r.pos (r.test source code).2.pos := by
  simp only [test]
  split
  · exact advance_ahead r
  · exact .refl _

theorem test_later (proper : code ≠ endOfFile) (found : (r.test source code).1 = true) :
    source.Later r.pos (r.test source code).2.pos := by
  simp only [test] at found ⊢
  split
  · rename_i next
    rw [if_pos next] at found
    exact advance_later (next ▸ proper)
  · rename_i other
    simp [other] at found

theorem testCodes_ahead (codes : List Nat) (r : Reader) : source.Ahead r.pos (testCodes source codes r).2.pos := by
  induction codes generalizing r with
  | nil => exact .refl _
  | cons code rest ih =>
    have tested : source.Ahead r.pos (r.test source code).2.pos := test_ahead code r
    simp only [testCodes]
    split
    · rename_i moved
      rw [moved] at tested
      exact tested.trans (ih _)
    · rename_i stayed
      rwa [stayed] at tested

theorem testCodes_later (proper : ∀ code ∈ codes, code ≠ endOfFile) (nonempty : codes ≠ [])
    (found : (testCodes source codes r).1 = true) : source.Later r.pos (testCodes source codes r).2.pos := by
  cases codes with
  | nil => exact absurd rfl nonempty
  | cons code rest =>
    simp only [testCodes] at found ⊢
    split
    · rename_i after moved
      have first : source.Later r.pos after.pos := by
        have tested := test_later (proper code List.mem_cons_self) (congrArg Prod.fst moved)
        rwa [moved] at tested
      exact first.then_ahead (testCodes_ahead rest after)
    · rename_i stayed
      simp [stayed] at found

theorem testText_pos (missing : (testText source text r).1 = false) :
    (testText source text r).2.pos = r.pos := by
  simp only [testText] at missing ⊢
  split
  · rename_i moved
    simp [moved] at missing
  · rename_i after stayed
    have ahead : source.Ahead r.pos after.pos := by
      have tested : source.Ahead r.pos _ := testCodes_ahead (codePoints text) r
      rwa [stayed] at tested
    exact restore_pos (c := r.checkpoint) ahead

def IsSpelled (text : Bytes) : Prop := codePoints text ≠ [] ∧ ∀ code ∈ codePoints text, code ≠ endOfFile

instance (text : Bytes) : Decidable (IsSpelled text) := inferInstanceAs (Decidable (_ ∧ _))

theorem testText_later (spelled : IsSpelled text) (found : (testText source text r).1 = true) :
    source.Later r.pos (testText source text r).2.pos := by
  simp only [testText] at found ⊢
  split
  · rename_i after moved
    have tested := testCodes_later spelled.2 spelled.1 (congrArg Prod.fst moved)
    rwa [moved] at tested
  · rename_i stayed
    simp [stayed] at found

theorem expectCodes_cases (proper : ∀ code ∈ codes, code ≠ endOfFile) :
    (∃ after, expectCodes source c codes r = (true, after) ∧ after.scope = r.scope ∧
      if codes = [] then after.pos = r.pos else source.Later r.pos after.pos) ∨
    ∃ (middle : Reader) (reason : Reason), expectCodes source c codes r = (false, middle.reject c reason) ∧
      middle.scope = r.scope ∧
      source.Ahead r.pos middle.pos := by
  induction codes generalizing r with
  | nil => exact .inl ⟨r, rfl, rfl, rfl⟩
  | cons code rest ih =>
    by_cases next : r.peek source = code
    · have first : source.Later r.pos (r.advance source).pos := by
        apply advance_later
        rw [next]
        exact proper code List.mem_cons_self
      have step : expectCodes source c (code :: rest) r = expectCodes source c rest (r.advance source) := by
        simp only [expectCodes, expect, if_pos next]
      rw [step]
      rcases ih (r := r.advance source) fun other member => proper other (List.mem_cons_of_mem _ member) with
        ⟨after, ran, kept, further⟩ | ⟨middle, reason, ran, kept, further⟩
      · refine .inl ⟨after, ran, kept.trans (advance_scope source r), ?_⟩
        rw [if_neg (List.cons_ne_nil code rest)]
        split at further
        · rwa [further]
        · exact first.trans further
      · exact .inr ⟨middle, reason, ran, kept.trans (advance_scope source r), (first.then_ahead further).ahead⟩
    · refine .inr ⟨r, Reason.expected code (r.peek source), ?_, rfl, .refl _⟩
      simp only [expectCodes, expect, if_neg next]

theorem leadingWord_length_le (text : Bytes) : (leadingWord text).length ≤ text.length := by
  simp only [leadingWord]
  split
  · exact Nat.le_refl _
  · split
    · exact (List.takeWhile_sublist _).length_le
    · exact Nat.zero_le _

theorem word_later (found : (r.word source).1 ≠ []) : source.Later r.pos (r.word source).2.pos := by
  simp only [word] at found ⊢
  cases here : source.lines[r.pos.line]? with
  | none => simp [here, leadingWord] at found
  | some text =>
    simp only [here, Option.getD_some] at found ⊢
    have inside : (leadingWord (text.drop r.pos.column)).length ≤ text.length - r.pos.column := by
      rw [← List.length_drop]
      exact leadingWord_length_le _
    have positive : 0 < (leadingWord (text.drop r.pos.column)).length := List.length_pos_iff.mpr found
    have fits : r.pos.column + (leadingWord (text.drop r.pos.column)).length ≤ text.length := by omega
    exact Source.later_column here fits positive

theorem word_ahead (r : Reader) : source.Ahead r.pos (r.word source).2.pos := by
  by_cases nothing : (r.word source).1 = []
  · left
    simp only [word] at nothing ⊢
    rw [nothing]
    rfl
  · exact (word_later nothing).ahead

theorem restOfLine_later (more : 0 < source.remaining r.pos) : source.Later r.pos (r.restOfLine source).2.pos := by
  simp only [restOfLine]
  cases here : source.lines[r.pos.line]? with
  | none =>
    have nothing := Source.remaining_eq_zero here r.pos.column
    change source.remaining r.pos = 0 at nothing
    omega
  | some text => exact Source.later_nextLine here _

theorem restOfLine_ahead (r : Reader) : source.Ahead r.pos (r.restOfLine source).2.pos := by
  by_cases more : 0 < source.remaining r.pos
  · exact (restOfLine_later more).ahead
  · left
    cases here : source.lines[r.pos.line]? with
    | none => simp only [restOfLine, here]
    | some text =>
      have counted := Source.remaining_pos here
      omega

theorem remaining_pos_of_not_atEnd (going : r.atEnd source = false) : 0 < source.remaining r.pos := by
  have inside : r.pos.line < source.lines.size := by simpa [atEnd] using going
  exact Source.remaining_pos (Array.getElem?_eq_getElem inside)

end Reader

end Cb
