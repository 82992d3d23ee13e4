import Cb.Proofs.Progress

/-! What a reader reports after any sequence of operations. Its position never leaves the source, and the
failure that it remembers is the newest one among those that got furthest. The failures are told without the
reader's own record: each operation raises at most one, at the position where it gives up. -/

namespace Cb

namespace Position

variable {p q r : Position}

theorem before_iff : p.before q = true ↔ p.line < q.line ∨ p.line = q.line ∧ p.column < q.column := by
  simp only [before]
  split
  · simp only [decide_eq_true_eq]
    omega
  · simp only [decide_eq_true_eq]
    omega

theorem not_before_of_before (first : p.before q = true) : q.before p = false := by
  rw [← Bool.not_eq_true, before_iff]
  rw [before_iff] at first
  omega

theorem before_of_not_before (first : p.before q = true) (notShorter : r.before q = false) : p.before r = true := by
  rw [← Bool.not_eq_true, before_iff] at notShorter
  rw [before_iff] at first ⊢
  omega

end Position

/-- The position lies within a line, at most right behind its last character, or at the start of the line
that would follow the last one. -/
def Source.Holds (source : Source) (pos : Position) : Prop :=
  match source.lines[pos.line]? with
  | some text => pos.column ≤ text.length
  | none => pos.line = source.lines.size ∧ pos.column = 0

namespace Reader

inductive Operation where
  | advance
  | skip
  | test (code : Nat)
  | testText (text : Bytes)
  | expect (code : Nat) (c : Checkpoint)
  | expectText (text : Bytes) (c : Checkpoint)
  | expectBlanks (c : Checkpoint)
  | word
  | restOfLine
  | checkpoint
  | restore (c : Checkpoint) (reason : Reason)
  | restoreScope (c : Checkpoint)
  | fail (reason : Reason)

def raisedAmong (source : Source) : List Nat → Reader → Option Failure
  | [], _ => none
  | code :: rest, r =>
    if r.peek source = code then raisedAmong source rest (r.advance source)
    else some ⟨r.pos, .expected code (r.peek source)⟩

namespace Operation

def run (source : Source) (r : Reader) : Operation → Reader
  | .advance => r.advance source
  | .skip => (r.skip source).2
  | .test code => (r.test source code).2
  | .testText text => (r.testText source text).2
  | .expect code c => (r.expect source code c).2
  | .expectText text c => (r.expectText source text c).2
  | .expectBlanks c => (r.expectBlanks source c).2
  | .word => (r.word source).2
  | .restOfLine => (r.restOfLine source).2
  | .checkpoint => r
  | .restore c reason => if reason.message = [] then r.restore c else r.reject c reason
  | .restoreScope c => r.restoreScope c
  | .fail reason => if reason.message = [] then r else r.note reason

def checkpoint? : Operation → Option Checkpoint
  | .expect _ c | .expectText _ c | .expectBlanks c | .restore c _ | .restoreScope c => some c
  | _ => none

def raised (source : Source) (r : Reader) : Operation → Option Failure
  | .expect code _ => raisedAmong source [code] r
  | .expectText text _ => raisedAmong source (codePoints text) r
  | .expectBlanks _ => if (r.skip source).1 = 0 then some ⟨r.pos, .expectedBlank (r.peek source)⟩ else none
  | .restore _ reason | .fail reason => if reason.message = [] then none else some ⟨r.pos, reason⟩
  | _ => none

end Operation

structure Session where
  reader : Reader
  taken : List Checkpoint := []
  raised : List Failure := []

namespace Session

def perform (source : Source) (s : Session) (op : Operation) : Session where
  reader := op.run source s.reader
  taken := match op with
    | .checkpoint => s.reader.checkpoint :: s.taken
    | _ => s.taken
  raised := (op.raised source s.reader).toList ++ s.raised

inductive Reached (source : Source) (scope : Scope) : Session → Prop
  | start : Reached source scope ⟨{ scope }, [], []⟩
  | perform {s : Session} {op : Operation} (earlier : Reached source scope s)
      (known : ∀ c ∈ op.checkpoint?, c ∈ s.taken) : Reached source scope (s.perform source op)

end Session

/-- The failure is one of those raised, the newest of which comes first: none got further than it, and none
that is newer got as far. -/
def Furthest (raised : List Failure) (failure : Failure) : Prop :=
  ∃ newer older, raised = newer ++ failure :: older ∧
    (∀ other ∈ newer, other.pos.before failure.pos = true) ∧ ∀ other ∈ older, failure.pos.before other.pos = false

/-- The diagnostic shows the failure: its message, and the text and origin of its line; behind the last line
it is the end of the last line. -/
structure Shows (source : Source) (failure : Failure) (d : Diagnostic) : Prop where
  message : d.message = failure.reason.message
  line : 0 < source.lines.size →
    source.lines[min failure.pos.line (source.lines.size - 1)]? = some d.source ∧
      source.origins[min failure.pos.line (source.lines.size - 1)]? = some d.origin
  column : d.column = if failure.pos.line < source.lines.size then failure.pos.column else d.source.length
  column_le : d.column ≤ d.source.length

section Steps

variable {source : Source} {r middle after : Reader} {c : Checkpoint} {text : Bytes} {raised : Option Failure}

theorem holds_lineStart (within : line ≤ source.lines.size) : source.Holds ⟨line, 0⟩ := by
  simp only [Source.Holds]
  cases found : source.lines[line]? with
  | none =>
    have ended := Array.getElem?_eq_none_iff.mp found
    exact ⟨by omega, trivial⟩
  | some text => exact Nat.zero_le _

theorem holds_inside (here : source.lines[line]? = some text) :
    source.Holds ⟨line, column⟩ ↔ column ≤ text.length := by
  simp only [Source.Holds, here]

theorem holds_nextLine (here : source.lines[r.pos.line]? = some text) : source.Holds r.nextLine.pos := by
  have inside := (Array.getElem?_eq_some_iff.mp here).1
  exact holds_lineStart (by omega)

def record (known : Option Failure) (failure : Failure) : Option Failure :=
  match known with
  | none => some failure
  | some further => if failure.pos.before further.pos then some further else some failure

structure Steps (source : Source) (r : Reader) (raised : Option Failure) (after : Reader) : Prop where
  holds : source.Holds after.pos
  failure : after.failure = raised.elim r.failure (record r.failure)
  inside : ∀ failure ∈ raised, source.Holds failure.pos

theorem Steps.refl (holds : source.Holds r.pos) : Steps source r none r := ⟨holds, rfl, by simp⟩

theorem Steps.trans (first : Steps source r none middle) (second : Steps source middle raised after) :
    Steps source r raised after := by
  have kept : middle.failure = r.failure := first.failure
  refine ⟨second.holds, ?_, second.inside⟩
  rw [second.failure, kept]

theorem skip_of_none (nothing : (skipUpTo source limit r).1 = 0) : (skipUpTo source limit r).2 = r := by
  cases limit with
  | zero => rfl
  | succ limit =>
    simp only [skipUpTo] at nothing ⊢
    split
    · rename_i blank
      simp [blank] at nothing
    · rfl

theorem leadingWord_isPrefix (text : Bytes) : leadingWord text <+: text := by
  simp only [leadingWord]
  split
  · exact List.prefix_rfl
  · split
    · exact List.takeWhile_prefix _
    · exact List.nil_prefix

theorem word_inside (found : (r.word source).1 ≠ []) :
    ∃ text, source.lines[r.pos.line]? = some text ∧ (r.word source).1 <+: text.drop r.pos.column := by
  simp only [word] at found ⊢
  cases here : source.lines[r.pos.line]? with
  | none => simp [here, leadingWord] at found
  | some text => exact ⟨text, rfl, leadingWord_isPrefix _⟩

variable (holds : source.Holds r.pos)

include holds

theorem advance_steps : Steps source r none (r.advance source) := by
  simp only [advance]
  split
  · exact .refl holds
  · rename_i more
    cases here : source.lines[r.pos.line]? with
    | none => exact absurd (by simp [peek, here]) more
    | some text =>
      split
      · exact ⟨holds_nextLine here, rfl, by simp⟩
      · rename_i notEnd
        exact ⟨(holds_inside here).mpr (column_lt here notEnd), rfl, by simp⟩

theorem skipUpTo_steps (limit : Nat) : Steps source r none (skipUpTo source limit r).2 := by
  induction limit generalizing r with
  | zero => exact .refl holds
  | succ limit ih =>
    simp only [skipUpTo]
    split
    · have moved := advance_steps holds
      exact moved.trans (ih moved.holds)
    · exact .refl holds

theorem test_steps (code : Nat) : Steps source r none (r.test source code).2 := by
  simp only [test]
  split
  · exact advance_steps holds
  · exact .refl holds

theorem testCodes_steps (codes : List Nat) :
    Steps source r none (testCodes source codes r).2 := by
  induction codes generalizing r with
  | nil => exact .refl holds
  | cons code rest ih =>
    have tested := test_steps holds code
    simp only [testCodes]
    split
    · rename_i moved
      rw [moved] at tested
      exact tested.trans (ih tested.holds)
    · rename_i stayed
      rwa [stayed] at tested

theorem restore_steps (known : source.Holds c.pos) : Steps source r none (r.restore c) := by
  refine ⟨?_, rfl, by simp⟩
  rcases restore_pos_or r c with back | here
  · rwa [back]
  · rwa [here]

theorem note_steps (reason : Reason) :
    Steps source r (some ⟨r.pos, reason⟩) (r.note reason) := by
  refine ⟨by rwa [note_pos], ?_, by simpa using holds⟩
  simp only [note, record, Option.elim_some]
  cases known : r.failure with
  | none => rfl
  | some further =>
    dsimp only
    split
    · exact known
    · rfl

theorem reject_steps (known : source.Holds c.pos) (reason : Reason) :
    Steps source r (some ⟨r.pos, reason⟩) (r.reject c reason) := by
  have noted := note_steps holds reason
  exact ⟨(restore_steps noted.holds known).holds, noted.failure, noted.inside⟩

theorem testText_steps (text : Bytes) : Steps source r none (r.testText source text).2 := by
  have tested := testCodes_steps holds (codePoints text)
  simp only [testText]
  split
  · rename_i moved
    rwa [moved] at tested
  · rename_i stayed
    rw [stayed] at tested
    exact tested.trans (restore_steps tested.holds holds)

theorem expect_steps (code : Nat) (known : source.Holds c.pos) :
    Steps source r (raisedAmong source [code] r) (r.expect source code c).2 := by
  by_cases next : r.peek source = code
  · simp only [raisedAmong, expect, if_pos next]
    exact advance_steps holds
  · simp only [raisedAmong, expect, if_neg next]
    exact reject_steps holds known _

theorem expectCodes_steps (codes : List Nat) (known : source.Holds c.pos) :
    Steps source r (raisedAmong source codes r) (expectCodes source c codes r).2 := by
  induction codes generalizing r with
  | nil => exact .refl holds
  | cons code rest ih =>
    by_cases next : r.peek source = code
    · simp only [raisedAmong, expectCodes, expect, if_pos next]
      have moved := advance_steps holds
      exact moved.trans (ih moved.holds)
    · simp only [raisedAmong, expectCodes, expect, if_neg next]
      exact reject_steps holds known _

theorem expectBlanks_steps (known : source.Holds c.pos) :
    Steps source r ((Operation.expectBlanks c).raised source r) (r.expectBlanks source c).2 := by
  have moved : Steps source r none (r.skip source).2 := skipUpTo_steps holds _
  simp only [Operation.raised, expectBlanks]
  rcases skipped : r.skip source with ⟨count, after⟩
  cases count with
  | zero =>
    have stays : (r.skip source).2 = r := skip_of_none (congrArg Prod.fst skipped)
    rw [skipped] at stays
    subst stays
    exact reject_steps holds known _
  | succ count =>
    rwa [skipped] at moved

theorem restOfLine_steps : Steps source r none (r.restOfLine source).2 := by
  simp only [restOfLine]
  split
  · exact .refl holds
  · rename_i here
    exact ⟨holds_nextLine here, rfl, by simp⟩

theorem word_steps : Steps source r none (r.word source).2 := by
  refine ⟨?_, rfl, by simp⟩
  by_cases nothing : (r.word source).1 = []
  · simp only [word] at nothing ⊢
    rw [nothing]
    exact holds
  · obtain ⟨text, here, part⟩ := word_inside nothing
    have shorter := part.length_le
    have longer := List.length_pos_iff.mpr nothing
    rw [List.length_drop] at shorter
    have fits : r.pos.column + (r.word source).1.length ≤ text.length := by omega
    exact (holds_inside here).mpr fits

theorem Operation.steps (op : Operation)
    (known : ∀ c ∈ op.checkpoint?, source.Holds c.pos) : Steps source r (op.raised source r) (op.run source r) := by
  cases op with
  | advance => exact advance_steps holds
  | skip => exact skipUpTo_steps holds _
  | test code => exact test_steps holds code
  | testText text => exact testText_steps holds text
  | expect code c => exact expect_steps holds code (known c rfl)
  | expectText text c => exact expectCodes_steps holds _ (known c rfl)
  | expectBlanks c => exact expectBlanks_steps holds (known c rfl)
  | word => exact word_steps holds
  | restOfLine => exact restOfLine_steps holds
  | checkpoint => exact .refl holds
  | restore c reason =>
    simp only [run, Operation.raised]
    split
    · exact restore_steps holds (known c rfl)
    · exact reject_steps holds (known c rfl) reason
  | restoreScope c => exact ⟨holds, rfl, by simp [Operation.raised]⟩
  | fail reason =>
    simp only [run, Operation.raised]
    split
    · exact .refl holds
    · exact note_steps holds reason

end Steps

section Sessions

variable {source : Source} {scope : Scope} {s : Session} {failure : Failure} {raised : List Failure}

def furthest (raised : List Failure) : Option Failure := raised.foldr (fun failure known => record known failure) none

structure Session.Sound (source : Source) (s : Session) : Prop where
  holds : source.Holds s.reader.pos
  taken : ∀ c ∈ s.taken, source.Holds c.pos
  failure : s.reader.failure = furthest s.raised
  inside : ∀ failure ∈ s.raised, source.Holds failure.pos

theorem Session.Sound.perform (sound : s.Sound source) (known : ∀ c ∈ op.checkpoint?, c ∈ s.taken) :
    (s.perform source op).Sound source := by
  have steps := op.steps sound.holds fun c given => sound.taken c (known c given)
  refine ⟨steps.holds, ?_, ?_, ?_⟩
  · intro c member
    cases op with
    | checkpoint =>
      rcases List.mem_cons.mp member with rfl | earlier
      · exact sound.holds
      · exact sound.taken c earlier
    | _ => exact sound.taken c member
  · have recorded := steps.failure
    rw [sound.failure] at recorded
    simp only [Session.perform]
    rw [recorded]
    cases op.raised source s.reader with
    | none => rfl
    | some failure => rfl
  · intro failure member
    rcases List.mem_append.mp member with new | earlier
    · exact steps.inside failure (Option.mem_toList.mp new)
    · exact sound.inside failure earlier

theorem Session.Reached.sound (reached : s.Reached source scope) : s.Sound source := by
  induction reached with
  | start => exact ⟨holds_lineStart (Nat.zero_le _), by simp, rfl, by simp⟩
  | perform _ known ih => exact ih.perform known

theorem furthest_cons (failure : Failure) (older : List Failure) :
    furthest (failure :: older) = record (furthest older) failure := rfl

theorem furthest_eq_none_iff : furthest raised = none ↔ raised = [] := by
  cases raised with
  | nil => simp [furthest]
  | cons failure older =>
    simp only [furthest_cons, record, reduceCtorEq, iff_false]
    split
    · nofun
    · split <;> nofun

theorem furthest_spec (found : furthest raised = some failure) : Furthest raised failure := by
  induction raised generalizing failure with
  | nil => contradiction
  | cons newest older ih =>
    rw [furthest_cons] at found
    cases known : furthest older with
    | none =>
      obtain rfl : newest = failure := by simpa [known, record] using found
      obtain rfl := furthest_eq_none_iff.mp known
      exact ⟨[], [], rfl, by simp, by simp⟩
    | some further =>
      obtain ⟨newer, oldest, rfl, below, notAbove⟩ := ih known
      simp only [known, record] at found
      by_cases short : newest.pos.before further.pos = true
      · obtain rfl : further = failure := by simpa [short] using found
        refine ⟨newest :: newer, oldest, rfl, ?_, notAbove⟩
        rw [List.forall_mem_cons]
        exact ⟨short, below⟩
      · obtain rfl : newest = failure := by simpa [short] using found
        refine ⟨[], newer ++ further :: oldest, rfl, by simp, ?_⟩
        -- none of the older ones got further than the one that was remembered, which the newest one reaches
        intro other member
        have notFurther : further.pos.before other.pos = false := by
          rcases List.mem_append.mp member with early | late
          · exact Position.not_before_of_before (below other early)
          · rcases List.mem_cons.mp late with rfl | oldest
            · simp [Position.before]
            · exact notAbove other oldest
        rw [← Bool.not_eq_true]
        intro after
        exact short (Position.before_of_not_before after notFurther)

theorem shows_diagnostic (named : source.origins.size = source.lines.size) (holds : source.Holds failure.pos) :
    Shows source failure (source.diagnostic failure.pos failure.reason.message) := by
  have origin {n : Nat} (inside : n < source.lines.size) : source.origins[n]? = some (source.origins[n]?.getD []) := by
    rw [Array.getElem?_eq_getElem (by omega), Option.getD_some]
  cases here : source.lines[failure.pos.line]? with
  | some text =>
    have inside := (Array.getElem?_eq_some_iff.mp here).1
    have line : min failure.pos.line (source.lines.size - 1) = failure.pos.line := by omega
    simp only [Source.diagnostic, here]
    refine ⟨rfl, fun _ => ?_, (if_pos inside).symm, (holds_inside here).mp holds⟩
    rw [line]
    exact ⟨here, origin inside⟩
  | none =>
    have behind := Array.getElem?_eq_none_iff.mp here
    cases ends : source.lines.back? with
    | none =>
      have nothing : source.lines.size = 0 := by simpa using ends
      simp only [Source.Holds, here] at holds
      simp only [Source.diagnostic, here, ends, holds.2]
      exact ⟨rfl, by omega, (if_neg (by omega)).symm, Nat.le_refl 0⟩
    | some last =>
      have line : min failure.pos.line (source.lines.size - 1) = source.lines.size - 1 := by omega
      simp only [Source.diagnostic, here, ends]
      refine ⟨rfl, fun some => ?_, (if_neg (by omega)).symm, Nat.le_refl _⟩
      rw [line]
      exact ⟨ends, origin (by omega)⟩

end Sessions

/-- After any operations the reader stands within the source, the words it reads lie within their lines, and
it reports the newest of the failures that got furthest. -/
theorem reports_furthest {source : Source} (named : source.origins.size = source.lines.size) {scope : Scope}
    {s : Session} (reached : s.Reached source scope) :
    source.Holds s.reader.pos ∧
      ((s.reader.word source).1 ≠ [] → ∃ text, source.lines[s.reader.pos.line]? = some text ∧
        (s.reader.word source).1 <+: text.drop s.reader.pos.column) ∧
      (s.reader.failure? source = none ↔ s.raised = []) ∧
      ∀ d, s.reader.failure? source = some d → ∃ failure, Furthest s.raised failure ∧ Shows source failure d := by
  have sound := reached.sound
  refine ⟨sound.holds, word_inside, ?_, ?_⟩
  · rw [failure?, Option.map_eq_none_iff, sound.failure, furthest_eq_none_iff]
  · intro d reported
    obtain ⟨failure, remembered, rfl⟩ := Option.map_eq_some_iff.mp reported
    rw [sound.failure] at remembered
    have furthest := furthest_spec remembered
    refine ⟨failure, furthest, shows_diagnostic named (sound.inside failure ?_)⟩
    obtain ⟨newer, older, split, -, -⟩ := furthest
    rw [split]
    simp

def twoWords : Source where
  lines := #["abc def"]
  origins := #["file: t.cb, line: 1"]

def twiceFailing : Session :=
  let c : Checkpoint := ⟨.start, Scope.sizes {}⟩
  [.checkpoint, .advance, .advance, .restore c (.other "far"), .advance, .restore c (.other "near")].foldl
    (Session.perform twoWords) ⟨{}, [], []⟩

theorem reports_furthest_far :
    twiceFailing.Reached twoWords {} ∧
      twiceFailing.raised = [⟨⟨0, 1⟩, .other "near"⟩, ⟨⟨0, 2⟩, .other "far"⟩] ∧
      ∃ failure, Furthest twiceFailing.raised failure ∧
        Shows twoWords failure
          { message := "far", origin := "file: t.cb, line: 1", source := "abc def", column := 2 } := by
  have reached : twiceFailing.Reached twoWords {} := by
    refine .perform (.perform (.perform (.perform (.perform (.perform .start ?_) ?_) ?_) ?_) ?_) ?_
    all_goals
      intro c given
      cases given
    all_goals exact List.mem_singleton.mpr rfl
  have reported : twiceFailing.reader.failure? twoWords =
      some { message := "far", origin := "file: t.cb, line: 1", source := "abc def", column := 2 } := by
    decide +kernel
  exact ⟨reached, by decide +kernel, (reports_furthest rfl reached).2.2.2 _ reported⟩

end Reader

end Cb
