import Cb.Scenario
import Mathlib.Data.List.Forall2

/-! The sections of a document and the scenarios in them. The blocks are taken one by one, and a scenario is looked at
as a whole only when its section has ended. So extraction succeeds exactly if every section has a source that is not
empty, something that is expected of it and no other labels; and only a source that is empty may be given again. A
source counts as empty if it has nothing but line ends. -/

namespace Cb

open Segment (content)

namespace MarkdownBlock

def testName? : MarkdownBlock → Option Bytes
  | .heading texts _ => Bytes.after? "Test: " texts.flatten
  | .fence _ _ => none

def lines : MarkdownBlock → List Segment
  | .heading _ lines | .fence _ lines => lines

def label : MarkdownBlock → Bytes
  | .heading _ _ => []
  | .fence label _ => label

def source? : MarkdownBlock → Option Bytes
  | .heading _ _ => none
  | .fence label lines => if label = "cb" then some (content lines) else none

def assertion? : MarkdownBlock → Option Assertion
  | .heading _ _ => none
  | .fence label lines =>
    if label = "asm" then some ⟨.asm, content lines⟩
    else if label = "error" then some ⟨.error, content lines⟩
    else if label = "warning" then some ⟨.warning, content lines⟩
    else none

def hasKnownLabel (block : MarkdownBlock) : Bool :=
  [[], utf8 "cb", utf8 "asm", utf8 "error", utf8 "warning"].contains block.label

end MarkdownBlock

open MarkdownBlock (source? assertion? testName? hasKnownLabel)

/-- A heading that starts a test, with the blocks up to the next one. -/
structure Section where
  name : Bytes
  heading : MarkdownBlock
  body : List MarkdownBlock

namespace Section

def blocks (s : Section) : List MarkdownBlock := s.heading :: s.body

def grown (s : Section) (more : List MarkdownBlock) : Section := { s with body := s.body ++ more }

def outline : List MarkdownBlock → List MarkdownBlock × List Section
  | [] => ([], [])
  | block :: rest =>
    match block.testName? with
    | some name => ([], ⟨name, block, (outline rest).1⟩ :: (outline rest).2)
    | none => (block :: (outline rest).1, (outline rest).2)

/-- The section is that of the scenario. Its source may come after others that are empty. -/
structure Gives (document : Bytes) (s : Section) (scenario : Scenario) : Prop where
  name : scenario.name = s.name
  line : scenario.line = Segment.firstLine document s.heading.lines
  labels : ∀ block ∈ s.body, block.hasKnownLabel = true
  sources : ∃ blanks, s.body.filterMap source? = List.replicate blanks [] ++ [scenario.input]
  filled : scenario.input ≠ []
  assertions : scenario.assertions = s.body.filterMap assertion?
  asserted : scenario.assertions ≠ []

theorem outline_cover (blocks : List MarkdownBlock) :
    blocks = (outline blocks).1 ++ (outline blocks).2.flatMap Section.blocks := by
  induction blocks with
  | nil => rfl
  | cons block rest ih =>
    rw [outline]
    cases block.testName? with
    | none => simp [← ih]
    | some name => simp [Section.blocks, ← ih]

theorem outline_plain (blocks : List MarkdownBlock) :
    (∀ block ∈ (outline blocks).1, block.testName? = none) ∧
      ∀ s ∈ (outline blocks).2, s.heading.testName? = some s.name ∧ ∀ block ∈ s.body, block.testName? = none := by
  induction blocks with
  | nil => simp [outline]
  | cons block rest ih =>
    rw [outline]
    cases starts : block.testName? with
    | none => simpa [starts] using ih
    | some name => simpa [starts] using ih

end Section

namespace Scenario

structure Holds (document : Bytes) (s : Section) (current : Scenario) : Prop where
  name : current.name = s.name
  line : current.line = Segment.firstLine document s.heading.lines
  labels : ∀ block ∈ s.body, block.hasKnownLabel = true
  sources : ∃ blanks, s.body.filterMap source? =
    List.replicate blanks [] ++ if current.input = [] then [] else [current.input]
  assertions : current.assertions = s.body.filterMap assertion?

variable {document : Bytes} {s : Section} {current scenario : Scenario} {rest : List MarkdownBlock}

theorem Holds.gives_iff (holds : Holds document s current) :
    s.Gives document scenario ↔ scenario = current ∧ current.fault? = none := by
  obtain ⟨blanks, sources⟩ := holds.sources
  by_cases filled : current.input = []
  · refine iff_of_false (fun gives => ?_) (fun fine => ?_)
    · -- All sources are empty, but the last one is that of the scenario.
      obtain ⟨others, isLast⟩ := gives.sources
      have last : scenario.input ∈ s.body.filterMap source? := by simp [isLast]
      rw [sources, if_pos filled, List.append_nil] at last
      exact gives.filled (List.eq_of_mem_replicate last)
    · simp [fault?, filled] at fine
  · rw [if_neg filled] at sources
    have fine : current.fault? = none ↔ current.assertions ≠ [] := by simp [fault?, filled]
    rw [fine]
    constructor
    · intro gives
      obtain ⟨others, isLast⟩ := gives.sources
      have same : scenario.input = current.input := by
        have both := congrArg List.getLast? (isLast.symm.trans sources)
        simpa using both
      have whole : scenario = current := by
        have assertions := gives.assertions.trans holds.assertions.symm
        have name := gives.name.trans holds.name.symm
        have line := gives.line.trans holds.line.symm
        cases scenario
        cases current
        simp_all
      exact ⟨whole, whole ▸ gives.asserted⟩
    · rintro ⟨rfl, asserted⟩
      exact ⟨holds.name, holds.line, holds.labels, ⟨blanks, sources⟩, filled, holds.assertions, asserted⟩

theorem Holds.snoc {block : MarkdownBlock} (holds : Holds document s current)
    (name : scenario.name = current.name) (line : scenario.line = current.line) (known : block.hasKnownLabel = true)
    (sources : ∃ blanks, s.body.filterMap source? ++ block.source?.toList =
      List.replicate blanks [] ++ if scenario.input = [] then [] else [scenario.input])
    (assertions : scenario.assertions = current.assertions ++ block.assertion?.toList) :
    Holds document (s.grown [block]) scenario := by
  have single {β : Type} (pick : MarkdownBlock → Option β) : [block].filterMap pick = (pick block).toList := by
    cases picked : pick block <;> simp [picked]
  refine ⟨name.trans holds.name, line.trans holds.line, ?_, ?_, ?_⟩ <;> simp only [Section.grown]
  · rw [List.forall_mem_append, List.forall_mem_singleton]
    exact ⟨holds.labels, known⟩
  · rwa [List.filterMap_append, single]
  · rw [List.filterMap_append, single, assertions, holds.assertions]

theorem Holds.heading (holds : Holds document s current) (texts : List Bytes) (lines : List Segment) :
    Holds document (s.grown [.heading texts lines]) current :=
  holds.snoc rfl rfl rfl (by simpa [source?] using holds.sources) (by simp [assertion?])

theorem ne_label_of_kind? (unknown : kind? label = none) (k : AssertionKind) : label ≠ k.label := by
  have known : kind? k.label = some k := by cases k <;> decide +kernel
  rintro rfl
  cases unknown.symm.trans known

theorem assertion?_eq (label : Bytes) (lines : List Segment) :
    (MarkdownBlock.fence label lines).assertion? = (kind? label).map (⟨·, content lines⟩) := by
  cases found : kind? label with
  | some k =>
    obtain rfl : k.label = label := by simpa using List.find?_some found
    cases k <;> rfl
  | none =>
    have asm := ne_label_of_kind? found .asm
    have error := ne_label_of_kind? found .error
    have warning := ne_label_of_kind? found .warning
    simp_all [assertion?, AssertionKind.label]

theorem Holds.not_gives_second (holds : Holds document s current) (filled : current.input ≠ []) (lines : List Segment) :
    ¬(s.grown (.fence "cb" lines :: rest)).Gives document scenario := by
  intro gives
  obtain ⟨blanks, sources⟩ := holds.sources
  obtain ⟨others, isLast⟩ := gives.sources
  simp only [Section.grown, List.filterMap_append, sources, if_neg filled] at isLast
  have front : current.input ∈ List.replicate others [] := by
    have before := congrArg List.dropLast isLast
    rw [List.dropLast_concat] at before
    rw [← before]
    simp [source?]
  exact filled (List.eq_of_mem_replicate front)

theorem Holds.addFence (holds : Holds document s current) (label : Bytes) (lines : List Segment)
    (rest : List MarkdownBlock) (line : Nat) :
    (∃ extended, current.addFence label (content lines) line = .ok extended ∧
      Holds document (s.grown [.fence label lines]) extended) ∨
    (∃ fault, current.addFence label (content lines) line = .error fault) ∧
      ∀ scenario, ¬(s.grown (.fence label lines :: rest)).Gives document scenario := by
  rw [Scenario.addFence]
  split
  · rename_i isSource
    subst label
    split
    · rename_i empty
      rw [List.isEmpty_iff] at empty
      obtain ⟨blanks, sources⟩ := holds.sources
      refine .inl ⟨_, rfl, holds.snoc rfl rfl rfl ?_ (List.append_nil _).symm⟩
      rw [if_pos empty, List.append_nil] at sources
      rw [sources]
      by_cases blank : content lines = []
      · refine ⟨blanks + 1, ?_⟩
        simp [source?, blank, List.replicate_succ']
      · refine ⟨blanks, ?_⟩
        simp [source?, blank]
    · rename_i filled
      rw [List.isEmpty_iff] at filled
      exact .inr ⟨⟨_, rfl⟩, fun scenario => holds.not_gives_second filled lines⟩
  · rename_i other
    have sources : ∃ blanks, s.body.filterMap source? ++ (MarkdownBlock.fence label lines).source?.toList =
        List.replicate blanks [] ++ if current.input = [] then [] else [current.input] := by
      simpa [source?, other] using holds.sources
    split
    · rename_i kind found
      obtain rfl : kind.label = label := by simpa using List.find?_some found
      refine .inl ⟨_, rfl, holds.snoc rfl rfl (by cases kind <;> rfl) sources ?_⟩
      rw [assertion?_eq, found]
      rfl
    · rename_i unknown
      split
      · rename_i empty
        obtain rfl := List.isEmpty_iff.mp empty
        exact .inl ⟨_, rfl, holds.snoc rfl rfl rfl sources (by simp [assertion?_eq, unknown])⟩
      · rename_i labelled
        refine .inr ⟨⟨_, rfl⟩, fun scenario gives => ?_⟩
        have known := gives.labels (.fence label lines) (by simp [Section.grown])
        have asm := ne_label_of_kind? unknown .asm
        have error := ne_label_of_kind? unknown .error
        have warning := ne_label_of_kind? unknown .warning
        simp_all [hasKnownLabel, MarkdownBlock.label, AssertionKind.label]

theorem Holds.finished_iff (holds : Holds document s current) (atEnd : Bool) (scenarios : List Scenario) :
    finished (some current) atEnd = .ok scenarios ↔ List.Forall₂ (Section.Gives document) [s] scenarios := by
  simp only [finished, List.forall₂_cons_left_iff, List.forall₂_nil_left_iff, holds.gives_iff]
  cases current.fault? <;> simp [eq_comm]

theorem collect_heading {before : Option Scenario} {texts : List Bytes} {name : Bytes}
    (starts : Bytes.after? "Test: " texts.flatten = some name) (lines : List Segment) (scenarios : List Scenario) :
    collect document before (.heading texts lines :: rest) = .ok scenarios ↔
      ∃ first others, finished before false = .ok first ∧
        collect document (some { name, line := Segment.firstLine document lines }) rest = .ok others ∧
        scenarios = first ++ others := by
  simp only [collect, starts]
  cases finished before false with
  | error => simp [Bind.bind, Except.bind]
  | ok first =>
    cases collect document (some { name, line := Segment.firstLine document lines }) rest <;>
      simp [Bind.bind, Except.bind, Pure.pure, Except.pure, eq_comm]

theorem holds_nil (document name : Bytes) (texts : List Bytes) (lines : List Segment) :
    Holds document ⟨name, .heading texts lines, []⟩ { name, line := Segment.firstLine document lines } :=
  ⟨rfl, rfl, by simp, ⟨0, rfl⟩, rfl⟩

theorem Holds.collect_iff (holds : Holds document s current) (blocks : List MarkdownBlock) (scenarios : List Scenario) :
    collect document (some current) blocks = .ok scenarios ↔
      List.Forall₂ (Section.Gives document) (s.grown (Section.outline blocks).1 :: (Section.outline blocks).2)
        scenarios := by
  induction blocks generalizing s current scenarios with
  | nil =>
    rw [collect, holds.finished_iff, Section.outline, Section.grown, List.append_nil]
  | cons block rest ih =>
    have passed (more : List MarkdownBlock) : (s.grown [block]).grown more = s.grown (block :: more) := by
      simp [Section.grown]
    rw [Section.outline]
    cases block with
    | heading texts lines =>
      cases starts : Bytes.after? "Test: " texts.flatten with
      | none => simp only [collect, testName?, starts, ih (holds.heading texts lines), passed]
      | some name =>
        have begun := holds_nil document name texts lines
        simp only [collect_heading starts lines, holds.finished_iff, ih begun, testName?, starts]
        constructor
        · rintro ⟨first, others, one, more, rfl⟩
          simpa [Section.grown] using List.rel_append one more
        · intro whole
          obtain ⟨scenario, others, gives, more, rfl⟩ := List.forall₂_cons_left_iff.mp whole
          exact ⟨[scenario], others, .cons (by simpa [Section.grown] using gives) .nil, more, rfl⟩
    | fence label lines =>
      simp only [collect, testName?]
      rcases holds.addFence label lines (Section.outline rest).1 (Segment.firstLine document lines) with
        ⟨extended, added, further⟩ | ⟨⟨fault, failed⟩, spoiled⟩
      · rw [added]
        simp only [ih further, passed]
      · rw [failed]
        simp only [reduceCtorEq, false_iff, List.forall₂_cons_left_iff]
        rintro ⟨scenario, others, gives, _⟩
        exact spoiled _ gives

theorem collect_none_iff (document : Bytes) (blocks : List MarkdownBlock) (scenarios : List Scenario) :
    collect document none blocks = .ok scenarios ↔
      (∀ block ∈ (Section.outline blocks).1, block.label = []) ∧
        List.Forall₂ (Section.Gives document) (Section.outline blocks).2 scenarios := by
  induction blocks generalizing scenarios with
  | nil => simp [collect, finished, Section.outline, eq_comm (a := [])]
  | cons block rest ih =>
    rw [Section.outline]
    cases block with
    | heading texts lines =>
      cases starts : Bytes.after? "Test: " texts.flatten with
      | none => simp [collect, testName?, starts, ih, MarkdownBlock.label]
      | some name =>
        have begun := holds_nil document name texts lines
        simp only [collect_heading starts lines, finished, begun.collect_iff, testName?, starts]
        simp [Section.grown]
    | fence label lines =>
      simp only [collect, testName?, List.forall_mem_cons]
      split
      · rename_i empty
        have unlabelled : (MarkdownBlock.fence label lines).label = [] := List.isEmpty_iff.mp empty
        simp [ih, unlabelled]
      · rename_i labelled
        have label : (MarkdownBlock.fence label lines).label ≠ [] := by simpa [MarkdownBlock.label] using labelled
        simp [label]

/-- A document is cut at the headings that start tests. Whatever blocks it has, it is accepted exactly if nothing before
these headings has a label and each section gives a scenario, and these are the result. -/
theorem collect_by_sections (document : Bytes) (blocks : List MarkdownBlock) (scenarios : List Scenario) :
    let (front, sections) := Section.outline blocks
    blocks = front ++ sections.flatMap Section.blocks ∧
    (∀ block ∈ front, block.testName? = none) ∧
    (∀ s ∈ sections, s.heading.testName? = some s.name ∧ ∀ block ∈ s.body, block.testName? = none) ∧
    (collect document none blocks = .ok scenarios ↔
      (∀ block ∈ front, block.label = []) ∧ List.Forall₂ (Section.Gives document) sections scenarios) :=
  ⟨Section.outline_cover blocks, (Section.outline_plain blocks).1, (Section.outline_plain blocks).2,
    collect_none_iff document blocks scenarios⟩

/-- A second source is accepted behind one that has only a line end. -/
theorem collect_second_source :
    let document : Bytes := "# Test: twice\n\n```cb\n\n```\n\n```cb\nint a;\n```\n\n```asm\nret\n```\n"
    let blocks : List MarkdownBlock :=
      [.heading ["Test: twice"] [⟨2, "Test: twice"⟩], .fence "cb" [⟨21, "\n"⟩], .fence "cb" [⟨33, "int a;\n"⟩],
        .fence "asm" [⟨52, "ret\n"⟩]]
    collect document none blocks =
      .ok [{ name := "twice", line := 1, input := "int a;", assertions := [⟨.asm, "ret"⟩] }] := by
  decide +kernel

end Scenario

end Cb
