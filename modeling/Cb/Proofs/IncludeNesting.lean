import Cb.Preprocess.Basic
import Mathlib.Data.Nat.Init

/-! Includes nest only finitely deep. A file is marked while it is being expanded and cannot be included
again until it is done, so each file within another takes one more of the finitely many files, and the depth
that an expansion is given is never used up. The marks are taken back whatever the outcome. -/

namespace Cb

namespace Files

theorem follow_walks (files : Files) (followed : files.follow place parts = .ok found) :
    found = Path.walk place parts := by
  induction parts generalizing place with
  | nil =>
    cases followed
    rfl
  | cons part rest ih =>
    rw [follow] at followed
    rw [Path.walk]
    split at followed
    · cases followed
    split at followed
    · next stays => rw [if_pos stays, ih followed]
    · next moves =>
      rw [if_neg moves]
      split at followed
      · next up => rw [if_pos up, ih followed]
      · next down =>
        rw [if_neg down]
        split at followed
        · cases followed
        split at followed
        · exact ih followed
        · cases followed

theorem locate_walks {files : Files} (located : files.locate path = .ok place) :
    place = Path.walk (files.start path) (Path.components path) := by
  rw [locate] at located
  split at located
  · cases located
  split at located
  · cases located
  · exact files.follow_walks located

theorem absolute_mem {files : Files} (readable : files.read path = .ok content) :
    files.absolute path ∈ files.entries.map fun entry => pathTo entry.1 := by
  rw [read] at readable
  split at readable
  · cases readable
  next place located =>
    split at readable
    · next found =>
      obtain ⟨entry, member, matched⟩ := Option.map_eq_some_iff.mp found
      have same : entry.1 = place := by simpa using List.find?_some member
      refine List.mem_map.mpr ⟨entry, List.mem_of_find?_eq_some member, ?_⟩
      rw [same, locate_walks located, absolute]
    · cases readable

end Files

namespace Preprocess

variable {files : Files} {path : Bytes}

/-! What a run leaves open. -/

theorem warn_opened (line : Located) (message : Bytes) (p : Preprocessor) :
    (line.warn message p).opened = p.opened := by
  rw [Located.warn]
  split <;> rfl

theorem pragma_opened (line : Located) (argument : Bytes) (p : Preprocessor) :
    (pragma line argument p).opened = p.opened := by
  have warned : ∀ (flags : List Bytes) (q : Preprocessor),
      (flags.foldl (fun q flag => line.warn ("unknown pragma flag: " ++ flag) q) q).opened = q.opened := by
    intro flags
    induction flags with
    | nil => intro q; rfl
    | cons flag rest ih =>
      intro q
      rw [List.foldl_cons, ih, warn_opened]
  rw [pragma]
  split
  split
  · exact warned _ _
  · exact warn_opened line _ p

variable {groups : List Group} {number : Nat} {other : Bytes → Preprocessor → Outcome} {r : Preprocessor} {raw : Bytes}
  {lines : List Bytes} {d : Diagnostic}

theorem control_opened (controlled : control line groups p directive = .ok (after, q)) : q.opened = p.opened := by
  rw [control.eq_def] at controlled
  split at controlled
  case h_6 argument =>
    cases controlled
    split
    · exact pragma_opened line argument p
    · rfl
  all_goals
    repeat' split at controlled
    all_goals cases controlled <;> rfl

def Restores (inner : Bytes → Preprocessor → Outcome) : Prop :=
  ∀ path p, (inner path p).2.opened = p.opened

variable {inner : Bytes → Preprocessor → Outcome}

theorem scanLine_opened (files : Files) (path : Bytes) (restores : Restores inner) (number : Nat)
    (groups : List Group) (p : Preprocessor) (raw : Bytes) :
    (scanLine inner files path number groups p raw).2.opened = p.opened := by
  rw [scanLine]
  split
  · rfl
  · split
    · split
      · rfl
      · next target resolved =>
        have kept := restores target p
        split <;> next ended => simpa only [ended] using kept
    · rfl
  · split
    · rfl
    · next controlled => exact control_opened controlled

theorem scanLines_opened (files : Files) (path : Bytes) (restores : Restores inner) (number : Nat)
    (groups : List Group) (p : Preprocessor) (lines : List Bytes) :
    (scanLines inner files path number groups p lines).2.opened = p.opened := by
  induction lines generalizing number groups p with
  | nil => rfl
  | cons raw rest ih =>
    have first := scanLine_opened files path restores number groups p raw
    rw [scanLines]
    split
    · next ended => simpa only [ended] using first
    · next after lines q ended =>
      rw [ended] at first
      have others := ih (number + 1) after q
      split <;> next ended => exact (by simpa only [ended] using others : _ = q.opened).trans first

theorem scanFile_opened (files : Files) (path : Bytes) (restores : Restores inner) (p : Preprocessor)
    (lines : List Bytes) :
    (scanFile inner files path p lines).2.opened = p.opened := by
  have kept := scanLines_opened files path restores 1 [] p lines
  rw [scanFile]
  split
  · next ended => simpa only [ended] using kept
  · next ended =>
    rw [ended] at kept
    split <;> exact kept

theorem expandOnce_opened (restores : Restores inner) : Restores (expandOnce inner files) := by
  intro path p
  rw [expandOnce]
  split
  · rfl
  · split
    · rfl
    · next content readable =>
      have kept := scanFile_opened files path restores (p.opening (files.absolute path)) (linesOf content)
      simp only [Preprocessor.closing, kept]
      exact List.erase_cons_head _ _

theorem expandFile_opened (files : Files) (depth : Nat) : Restores (expandFile files depth) := by
  induction depth with
  | zero =>
    intro path p
    rfl
  | succ depth ih =>
    intro path p
    exact expandOnce_opened ih path p

theorem expand_opened (files : Files) : Restores fun path p => p.expand files path :=
  expandFile_opened files _

/-! The files that can still be opened. -/

def unopened (files : Files) (marks : List Bytes) : List Bytes :=
  (files.entries.map fun entry => Files.pathTo entry.1).filter (· ∉ marks)

theorem unopened_le (files : Files) (marks : List Bytes) : (unopened files marks).length ≤ files.entries.length := by
  rw [unopened, ← List.length_map fun entry : Place × Bytes => Files.pathTo entry.1]
  exact List.length_filter_le _ _

theorem unopened_cons (files : Files) (place : Bytes) (marks : List Bytes) :
    unopened files (place :: marks) = (unopened files marks).filter (· ≠ place) := by
  simp only [unopened, List.filter_filter, List.mem_cons, not_or, Bool.decide_and, ne_eq]

theorem unopened_mark (readable : files.read path = .ok content) (fresh : files.absolute path ∉ marks) :
    (unopened files (files.absolute path :: marks)).length < (unopened files marks).length := by
  rw [unopened_cons]
  apply List.length_filter_lt_length_iff_exists.mpr
  refine ⟨files.absolute path, ?_, by simp⟩
  exact List.mem_filter.mpr ⟨Files.absolute_mem readable, by simpa using fresh⟩

/-- To show something of every expansion, show it of a file given that it holds of every expansion within:
those begin with one more file marked. -/
theorem expand_induction (files : Files) {motive : Bytes → Preprocessor → Prop}
    (step : ∀ path p,
      (∀ content, files.read path = .ok content → files.absolute path ∉ p.opened →
        ∀ target q, q.opened = files.absolute path :: p.opened → motive target q) → motive path p)
    (path : Bytes) (p : Preprocessor) : motive path p := by
  induction left : (unopened files p.opened).length using Nat.strong_induction_on generalizing path p with
  | h count ih =>
    apply step
    intro content readable fresh target q marked
    have fewer := unopened_mark readable fresh
    rw [← marked, left] at fewer
    exact ih _ fewer target q rfl

theorem scanLine_congr (agree : ∀ target, inner target p = other target p) (number : Nat) (groups : List Group)
    (raw : Bytes) :
    scanLine inner files path number groups p raw = scanLine other files path number groups p raw := by
  simp only [scanLine, agree]

theorem scanLines_congr (restores : Restores inner)
    (agree : ∀ target q, q.opened = marks → inner target q = other target q) (number : Nat) (groups : List Group)
    (marked : p.opened = marks) (lines : List Bytes) :
    scanLines inner files path number groups p lines = scanLines other files path number groups p lines := by
  induction lines generalizing number groups p with
  | nil => rfl
  | cons raw rest ih =>
    have kept := scanLine_opened files path restores number groups p raw
    rw [scanLines, scanLines, ← scanLine_congr (agree · p marked) number groups raw]
    split
    · rfl
    · next ended =>
      rw [ended] at kept
      rw [ih _ _ (kept.trans marked)]

theorem expandOnce_congr (restores : Restores inner)
    (agree : ∀ content, files.read path = .ok content → files.absolute path ∉ p.opened →
      ∀ target q, q.opened = files.absolute path :: p.opened → inner target q = other target q) :
    expandOnce inner files path p = expandOnce other files path p := by
  rw [expandOnce, expandOnce]
  split
  · rfl
  · next fresh =>
    rw [List.contains_iff_mem] at fresh
    split
    · rfl
    · next content readable =>
      rw [scanFile, scanFile, scanLines_congr restores (agree content readable fresh) 1 [] rfl (linesOf content)]

theorem expandFile_succ (files : Files) (depth : Nat) (deep : (unopened files p.opened).length < depth) :
    expandFile files depth path p = expandFile files (depth + 1) path p := by
  induction depth generalizing path p with
  | zero => omega
  | succ depth ih =>
    apply expandOnce_congr (expandFile_opened files depth)
    intro content readable fresh target q marked
    have fewer := unopened_mark readable fresh
    apply ih
    rw [marked]
    omega

theorem expandFile_bounded (files : Files) (deep : files.entries.length < depth) (path : Bytes) (p : Preprocessor) :
    expandFile files depth path p = p.expand files path := by
  induction depth, deep using Nat.le_induction with
  | base => rfl
  | succ depth deep ih =>
    have enough := unopened_le files p.opened
    rw [← expandFile_succ files depth (by omega), ih]

theorem expand_eq (files : Files) (path : Bytes) (p : Preprocessor) :
    p.expand files path = expandOnce (fun target q => q.expand files target) files path p := by
  rw [← expandFile_bounded files (show _ < files.entries.length + 2 by omega)]
  rfl

/-! Where a run stops. -/

theorem scanLines_cons_ok :
    scanLines inner files path number groups p (raw :: rest) = (.ok (ends, out), r) ↔
      ∃ after lines others q, scanLine inner files path number groups p raw = (.ok (after, lines), q) ∧
        scanLines inner files path (number + 1) after q rest = (.ok (ends, others), r) ∧ out = lines ++ others := by
  rw [scanLines]
  constructor
  · intro ended
    split at ended
    · cases ended
    · next after lines q first =>
      split at ended
      · cases ended
      · next others r' later =>
        cases ended
        exact ⟨after, lines, others, q, first, later, rfl⟩
  · rintro ⟨after, lines, others, q, first, later, rfl⟩
    simp only [first, later]

theorem scanLines_error : scanLines inner files path number groups p lines = (.error d, r) ↔
      ∃ before raw rest after out q, lines = before ++ raw :: rest ∧
        scanLines inner files path number groups p before = (.ok (after, out), q) ∧
        scanLine inner files path (number + before.length) after q raw = (.error d, r) := by
  induction lines generalizing number groups p with
  | nil => simp [scanLines]
  | cons first others ih =>
    constructor
    · intro failed
      rw [scanLines] at failed
      split at failed
      · next stopped =>
        cases failed
        exact ⟨[], first, others, groups, [], p, rfl, rfl, stopped⟩
      · next passed =>
        split at failed
        · next stopped =>
          cases failed
          obtain ⟨before, raw, rest, after, out, q, rfl, read, stopped⟩ := ih.mp stopped
          have longer := scanLines_cons_ok.mpr ⟨_, _, _, _, passed, read, rfl⟩
          refine ⟨first :: before, raw, rest, after, _, q, rfl, longer, ?_⟩
          rwa [List.length_cons, Nat.add_comm before.length, ← Nat.add_assoc]
        · cases failed
    · rintro ⟨before, raw, rest, after, out, q, split, read, stopped⟩
      rw [scanLines]
      cases before with
      | nil =>
        cases read
        cases split
        simp only [List.length_nil, Nat.add_zero] at stopped
        simp only [stopped]
      | cons _ before =>
        cases split
        obtain ⟨middle, lines, remaining, q', passed, later, rfl⟩ := scanLines_cons_ok.mp read
        rw [List.length_cons, Nat.add_comm before.length, ← Nat.add_assoc] at stopped
        have failed := ih.mpr ⟨before, raw, rest, after, remaining, q, rfl, later, stopped⟩
        simp only [passed, failed]

/-- While `path` is expanded from `p`, the expansion of `target` begins from `q`. The chain holds the files
whose expansion goes on around it, the innermost first. -/
inductive Reaches (files : Files) : Bytes → Preprocessor → List Bytes → Bytes → Preprocessor → Prop
  | here {path : Bytes} {p : Preprocessor} : Reaches files path p [] path p
  | within {path content raw argument next target : Bytes} {p q r : Preprocessor} {before rest chain : List Bytes}
      {groups : List Group} {out : List SourceLine}
      (fresh : files.absolute path ∉ p.opened)
      (readable : files.read path = .ok content)
      (lines : linesOf content = before ++ raw :: rest)
      (scanned : scanLines (fun target q => q.expand files target) files path 1 [] (p.opening (files.absolute path))
        before = (.ok (groups, out), q))
      (directive : directiveOf raw = some (.include argument))
      (taken : isTaken groups = true)
      (resolved : resolve files q.settings.includeDirs path argument = .ok next)
      (reached : Reaches files next q chain target r) :
      Reaches files path p (chain ++ [files.absolute path]) target r

variable {p q : Preprocessor} {chain : List Bytes} {target : Bytes}

theorem opened_of_scanned
    (scanned : scanLines (fun target q => q.expand files target) files path number groups p lines = (result, q)) :
    q.opened = p.opened := by
  have kept := scanLines_opened files path (expand_opened files) number groups p lines
  rwa [scanned] at kept

theorem Reaches.opened (reached : Reaches files path p chain target q) : q.opened = chain ++ p.opened := by
  induction reached with
  | here => rfl
  | within fresh readable lines scanned directive taken resolved reached ih =>
    rw [ih, opened_of_scanned scanned, List.append_assoc]
    rfl

theorem Reaches.length_le (reached : Reaches files path p chain target q) :
    chain.length ≤ (unopened files p.opened).length := by
  induction reached with
  | here => exact Nat.zero_le _
  | within fresh readable lines scanned directive taken resolved reached ih =>
    have fewer := unopened_mark readable fresh
    have marked := opened_of_scanned scanned
    rw [marked] at ih
    change _ ≤ (unopened files (files.absolute _ :: _)).length at ih
    rw [List.length_append, List.length_singleton]
    omega

theorem Reaches.error (reached : Reaches files path p chain target q) (failed : (q.expand files target).1 = .error d) :
    (p.expand files path).1 = .error d := by
  induction reached with
  | here => exact failed
  | @within path content raw argument next target p q r before rest chain groups out fresh readable lines scanned
      directive taken resolved reached ih =>
    obtain ⟨s, ended⟩ : ∃ s, q.expand files next = (.error d, s) := ⟨_, Prod.ext (ih failed) rfl⟩
    have stopped : scanLine (fun target q => q.expand files target) files path (1 + before.length) groups q raw
        = (.error d, s) := by
      rw [scanLine]
      simp only [directive, taken, resolved, ended, if_true]
    have run := scanLines_error.mpr ⟨before, raw, rest, groups, out, q, lines, scanned, stopped⟩
    have new : ¬p.opened.contains (files.absolute path) = true := by rwa [List.contains_iff_mem]
    rw [expand_eq, expandOnce]
    simp only [if_neg new, readable, scanFile, run]

/-! Cycles. -/

theorem cycle_injective (same : cycle path = cycle target) : path = target :=
  List.append_cancel_left (congrArg Diagnostic.message same)

theorem fail_ne_cycle (path : Bytes) (number : Nat) (raw : Bytes) (error : PreprocessError) (target : Bytes) :
    Located.fail ⟨originOf path number, raw⟩ error ≠ cycle target := by
  intro same
  have origin : originOf path number = [] := congrArg Diagnostic.origin same
  cases origin

theorem control_ne_cycle (failed : control ⟨originOf path number, raw⟩ groups p directive = .error d) :
    d ≠ cycle target := by
  rw [control.eq_def] at failed
  repeat' split at failed
  all_goals
    first
    | cases failed; done
    | cases failed; apply fail_ne_cycle

theorem scanLine_cycle (failed : scanLine inner files path number groups p raw = (.error (cycle target), r)) :
    ∃ argument next, directiveOf raw = some (.include argument) ∧ isTaken groups = true ∧
      resolve files p.settings.includeDirs path argument = .ok next ∧ inner next p = (.error (cycle target), r) := by
  rw [scanLine] at failed
  split at failed
  · cases failed
  · next argument directive =>
    split at failed
    · next taken =>
      split at failed
      · exact absurd (Except.error.inj (congrArg Prod.fst failed)) (fail_ne_cycle _ _ _ _ _)
      · next next resolved =>
        split at failed
        · next ended =>
          cases failed
          exact ⟨argument, next, directive, taken, resolved, ended⟩
        · cases failed
    · cases failed
  · split at failed
    · next stopped =>
      exact absurd (Except.error.inj (congrArg Prod.fst failed)) (control_ne_cycle stopped)
    · cases failed

theorem scanFile_cycle (failed : (scanFile inner files path p lines).1 = .error (cycle target)) :
    ∃ r, scanLines inner files path 1 [] p lines = (.error (cycle target), r) := by
  rw [scanFile] at failed
  split at failed
  · next d r stopped =>
    cases failed
    exact ⟨r, stopped⟩
  · split at failed
    · cases failed
    · have origin : ("file: " : Bytes) ++ path = [] := congrArg Diagnostic.origin (Except.error.inj failed)
      cases origin

/-- Expansion fails by a cycle exactly when it comes to expand a file that is being expanded. -/
theorem expand_cycle_iff (files : Files) (path : Bytes) (p : Preprocessor) :
    (p.expand files path).1 = .error (cycle target) ↔
      ∃ chain q, Reaches files path p chain target q ∧ files.absolute target ∈ q.opened := by
  constructor
  · intro failed
    induction path, p using expand_induction files with
    | step path p ih =>
    rw [expand_eq, expandOnce] at failed
    split at failed
    · next marked =>
      rw [← cycle_injective (Except.error.inj failed)]
      exact ⟨[], p, .here, List.contains_iff_mem.mp marked⟩
    · next fresh =>
      rw [List.contains_iff_mem] at fresh
      split at failed
      · exact absurd (congrArg Diagnostic.cause (Except.error.inj failed)) nofun
      · next content readable =>
        obtain ⟨r, run⟩ := scanFile_cycle failed
        obtain ⟨before, raw, rest, groups, out, q, lines, scanned, stopped⟩ := scanLines_error.mp run
        obtain ⟨argument, next, directive, taken, resolved, ended⟩ := scanLine_cycle stopped
        have marked := opened_of_scanned scanned
        obtain ⟨chain, s, reached, open_⟩ := ih content readable fresh next q marked (congrArg Prod.fst ended)
        exact ⟨_, s, .within fresh readable lines scanned directive taken resolved reached, open_⟩
  · rintro ⟨chain, q, reached, marked⟩
    apply reached.error
    rw [expand_eq, expandOnce]
    simp only [List.contains_iff_mem.mpr marked, if_true]

/-- Includes end and cycles are found. Expansion does not depend on the depth it is given, once that is more
than the number of files, and files nest no deeper than that. A cycle is reported exactly for a file that is
reached within its own expansion, or that was marked from the start. Marks are taken back whatever the
outcome, also over many expansions. -/
theorem expand_ends (files : Files) (path : Bytes) (p : Preprocessor) :
    (∀ depth, files.entries.length < depth → expandFile files depth path p = p.expand files path) ∧
    p.expand files path = expandOnce (fun target q => q.expand files target) files path p ∧
    (∀ chain target q, Reaches files path p chain target q →
      q.opened = chain ++ p.opened ∧ chain.length ≤ files.entries.length) ∧
    (∀ target, (p.expand files path).1 = .error (cycle target) ↔
      ∃ chain q, Reaches files path p chain target q ∧ files.absolute target ∈ chain ++ p.opened) ∧
    (p.expand files path).2.opened = p.opened ∧
    ∀ runs : List (Files × Bytes), (runs.foldl (fun q run => (q.expand run.1 run.2).2) p).opened = p.opened := by
  refine ⟨?_, expand_eq files path p, ?_, ?_, expand_opened files path p, ?_⟩
  · intro depth deep
    exact expandFile_bounded files deep path p
  · intro chain target q reached
    exact ⟨reached.opened, Nat.le_trans reached.length_le (unopened_le files p.opened)⟩
  · intro target
    rw [expand_cycle_iff]
    constructor
    · rintro ⟨chain, q, reached, marked⟩
      exact ⟨chain, q, reached, reached.opened ▸ marked⟩
    · rintro ⟨chain, q, reached, marked⟩
      exact ⟨chain, q, reached, reached.opened.symm ▸ marked⟩
  · intro runs
    induction runs generalizing p with
    | nil => rfl
    | cons run rest ih =>
      rw [List.foldl_cons, ih]
      exact expand_opened run.1 run.2 p

-- A file may be included twice, but not within itself.
example : ((Preprocessor.ofSettings {}).expand
    ⟨[(["m"], "#include \"a\"\n#include \"a\""), (["a"], "x")], [], []⟩ "m").1.toOption =
      some [⟨"x", "file: a, line: 1"⟩, ⟨"x", "file: a, line: 1"⟩] := by decide +kernel

end Preprocess

end Cb
