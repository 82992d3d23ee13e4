import Cb.Proofs.IncludeNesting

/-! Conditional groups nest, and the lines of a file are those of its taken branches. The groups of a file
form a forest. What the forest stands for is told by recursion on it, with no open groups kept: a group
stands for one of its branches, and the other one has no effect. Expansion yields exactly that. -/

namespace Cb.Preprocess

inductive Forest where
  | nil
  | line (number : Nat) (raw : Bytes) (rest : Forest)
  | group (name : Bytes) (wanted : Bool) (yes no rest : Forest)

def Directive.isConditional : Directive → Bool
  | .ifDefined _ _ | .otherwise | .endIf => true
  | _ => false

inductive Nests : Nat → List Bytes → Forest → Prop
  | nil {number : Nat} : Nests number [] .nil
  | line {number : Nat} {raw : Bytes} {lines : List Bytes} {rest : Forest}
      (plain : ∀ directive ∈ directiveOf raw, directive.isConditional = false)
      (others : Nests (number + 1) lines rest) : Nests number (raw :: lines) (.line number raw rest)
  | group {number : Nat} {first last name : Bytes} {wanted : Bool} {inside lines : List Bytes} {yes rest : Forest}
      (opens : directiveOf first = some (.ifDefined name wanted))
      (branch : Nests (number + 1) inside yes)
      (closes : directiveOf last = some .endIf)
      (others : Nests (number + 1 + inside.length + 1) lines rest) :
      Nests number (first :: (inside ++ last :: lines)) (.group name wanted yes .nil rest)
  | groupElse {number : Nat} {first middle last name : Bytes} {wanted : Bool} {inside outside lines : List Bytes}
      {yes no rest : Forest}
      (opens : directiveOf first = some (.ifDefined name wanted))
      (branch : Nests (number + 1) inside yes)
      (turns : directiveOf middle = some .otherwise)
      (opposite : Nests (number + 1 + inside.length + 1) outside no)
      (closes : directiveOf last = some .endIf)
      (others : Nests (number + 1 + inside.length + 1 + outside.length + 1) lines rest) :
      Nests number (first :: (inside ++ middle :: (outside ++ last :: lines))) (.group name wanted yes no rest)

def isUnknown : Option Directive → Bool
  | some (.unknown _) => true
  | _ => false

def Forest.isSilent : Forest → Bool
  | .nil => true
  | .line _ raw rest => !isUnknown (directiveOf raw) && rest.isSilent
  | .group name _ yes no rest => isName name && yes.isSilent && no.isSilent && rest.isSilent

mutual

inductive Expands (files : Files) : Bytes → Preprocessor → List SourceLine → Preprocessor → Prop
  | file {path content : Bytes} {p q : Preprocessor} {forest : Forest} {lines : List SourceLine}
      (fresh : files.absolute path ∉ p.opened)
      (readable : files.read path = .ok content)
      (nested : Nests 1 (linesOf content) forest)
      (yields : Yields files path forest (p.opening (files.absolute path)) lines q) :
      Expands files path p lines (q.closing (files.absolute path))

inductive Stands (files : Files) : Bytes → Nat → Bytes → Preprocessor → List SourceLine → Preprocessor → Prop
  | text {path raw : Bytes} {number : Nat} {p : Preprocessor} (plain : directiveOf raw = none) :
      Stands files path number raw p [⟨replace p.macros (cutComment raw), originOf path number⟩] p
  | inclusion {path raw argument target : Bytes} {number : Nat} {p q : Preprocessor} {lines : List SourceLine}
      (directive : directiveOf raw = some (.include argument))
      (resolved : resolve files p.settings.includeDirs path argument = .ok target)
      (expanded : Expands files target p lines q) : Stands files path number raw p lines q
  | define {path raw argument : Bytes} {number : Nat} {p : Preprocessor} {macros : Macros}
      (directive : directiveOf raw = some (.define argument))
      (defined : Preprocess.define argument p.macros = .ok macros) :
      Stands files path number raw p [] { p with macros }
  | undef {path raw name : Bytes} {number : Nat} {p : Preprocessor} {macros : Macros}
      (directive : directiveOf raw = some (.undef name))
      (undefined : undefine name p.macros = .ok macros) :
      Stands files path number raw p [] { p with macros }
  | pragma {path raw argument : Bytes} {number : Nat} {p : Preprocessor}
      (directive : directiveOf raw = some (.pragma argument)) :
      Stands files path number raw p [] (Preprocess.pragma ⟨originOf path number, raw⟩ argument p)

/-- A forest of the file at `path`, all of whose surroundings are taken, stands for these lines. Of a group
the branch counts that its condition picks, with the macros at its start. -/
inductive Yields (files : Files) : Bytes → Forest → Preprocessor → List SourceLine → Preprocessor → Prop
  | nil {path : Bytes} {p : Preprocessor} : Yields files path .nil p [] p
  | line {path raw : Bytes} {number : Nat} {rest : Forest} {p q r : Preprocessor} {lines others : List SourceLine}
      (first : Stands files path number raw p lines q) (later : Yields files path rest q others r) :
      Yields files path (.line number raw rest) p (lines ++ others) r
  | group {path name : Bytes} {wanted : Bool} {yes no rest : Forest} {p q r : Preprocessor}
      {lines others : List SourceLine}
      (named : isName name = true)
      (silent : (if p.macros.has name == wanted then no else yes).isSilent = true)
      (branch : Yields files path (if p.macros.has name == wanted then yes else no) p lines q)
      (later : Yields files path rest q others r) :
      Yields files path (.group name wanted yes no rest) p (lines ++ others) r

end

variable {files : Files} {path raw : Bytes} {inner : Bytes → Preprocessor → Outcome}

section Scanning

variable {number : Nat} {groups after : List Group} {p q : Preprocessor} {out : List SourceLine}

variable {name : Bytes} {wanted : Bool} {rest : List Bytes}

theorem scanLines_append_ok :
    scanLines inner files path number groups p (before ++ rest) = (.ok (after, out), q) ↔
      ∃ middle lines others r, scanLines inner files path number groups p before = (.ok (middle, lines), r) ∧
        scanLines inner files path (number + before.length) middle r rest = (.ok (after, others), q) ∧
        out = lines ++ others := by
  induction before generalizing number groups p out with
  | nil =>
    constructor
    · intro ended
      exact ⟨groups, [], out, p, rfl, ended, rfl⟩
    · rintro ⟨middle, lines, others, r, first, later, rfl⟩
      cases first
      exact later
  | cons raw before ih =>
    have shifted : number + (raw :: before).length = number + 1 + before.length := by
      rw [List.length_cons]
      omega
    rw [List.cons_append, scanLines_cons_ok, shifted]
    constructor
    · rintro ⟨turn, lines, _, s, first, later, rfl⟩
      obtain ⟨middle, between, others, r, next, ended, rfl⟩ := ih.mp later
      have begun := scanLines_cons_ok.mpr ⟨turn, lines, between, s, first, next, rfl⟩
      exact ⟨middle, lines ++ between, others, r, begun, ended, (List.append_assoc ..).symm⟩
    · rintro ⟨middle, _, others, r, begun, ended, rfl⟩
      obtain ⟨turn, lines, between, s, first, next, rfl⟩ := scanLines_cons_ok.mp begun
      have later := ih.mpr ⟨middle, between, others, r, next, ended, rfl⟩
      exact ⟨turn, lines, between ++ others, s, first, later, List.append_assoc ..⟩

theorem ended_iff : ((.ok (groups, []), p) : Attempted (List Group × List SourceLine)) = (.ok (after, out), q) ↔
    after = groups ∧ out = [] ∧ q = p := by
  constructor
  · intro ended
    cases ended
    exact ⟨rfl, rfl, rfl⟩
  · rintro ⟨rfl, rfl, rfl⟩
    rfl

theorem scanLine_opens (opens : directiveOf raw = some (.ifDefined name wanted)) :
    scanLine inner files path number groups p raw = (.ok (after, lines), q) ↔
      isName name = true ∧ after = ⟨isTaken groups, p.macros.has name == wanted, false⟩ :: groups ∧
        lines = [] ∧ q = p := by
  simp only [scanLine, opens, control]
  by_cases named : isName name = true
  · rw [if_pos named]
    exact ended_iff.trans (and_iff_right named).symm
  · rw [if_neg named]
    constructor
    · intro ended
      cases ended
    · intro ended
      exact absurd ended.1 named

theorem scanLine_turns (turns : directiveOf raw = some .otherwise) (first : group.hasElse = false) :
    scanLine inner files path number (group :: groups) p raw = (.ok (after, lines), q) ↔
      after = { group with hasElse := true } :: groups ∧ lines = [] ∧ q = p := by
  simp only [scanLine, turns, control, first, Bool.false_eq_true, if_false]
  exact ended_iff

theorem scanLine_closes (closes : directiveOf raw = some .endIf) :
    scanLine inner files path number (group :: groups) p raw = (.ok (after, lines), q) ↔
      after = groups ∧ lines = [] ∧ q = p := by
  simp only [scanLine, closes, control]
  exact ended_iff

theorem scanLines_opens (opens : directiveOf raw = some (.ifDefined name wanted)) :
    scanLines inner files path number groups p (raw :: rest) = (.ok (after, out), q) ↔
      isName name = true ∧ scanLines inner files path (number + 1)
        (⟨isTaken groups, p.macros.has name == wanted, false⟩ :: groups) p rest = (.ok (after, out), q) := by
  simp only [scanLines_cons_ok, scanLine_opens opens]
  constructor
  · rintro ⟨_, _, _, _, ⟨named, rfl, rfl, rfl⟩, later, rfl⟩
    exact ⟨named, later⟩
  · rintro ⟨named, later⟩
    exact ⟨_, [], out, _, ⟨named, rfl, rfl, rfl⟩, later, rfl⟩

theorem scanLines_quiet (quiet : ∀ {after lines q}, scanLine inner files path number groups p raw = (.ok (after, lines), q) ↔
      after = turned ∧ lines = [] ∧ q = p) :
    scanLines inner files path number groups p (raw :: rest) = (.ok (after, out), q) ↔
      scanLines inner files path (number + 1) turned p rest = (.ok (after, out), q) := by
  simp only [scanLines_cons_ok, quiet]
  constructor
  · rintro ⟨_, _, _, _, ⟨rfl, rfl, rfl⟩, later, rfl⟩
    exact later
  · intro later
    exact ⟨_, [], out, _, ⟨rfl, rfl, rfl⟩, later, rfl⟩

theorem scanLine_silent (plain : ∀ directive ∈ directiveOf raw, directive.isConditional = false)
    (skipped : isTaken groups = false) :
    scanLine inner files path number groups p raw = (.ok (after, lines), q) ↔
      after = groups ∧ lines = [] ∧ q = p ∧ isUnknown (directiveOf raw) = false := by
  cases read : directiveOf raw with
  | none =>
    simp only [scanLine, read, skipped, isUnknown, and_true]
    exact ended_iff
  | some directive =>
    have kind := plain directive read
    cases directive with
    | ifDefined | otherwise | endIf => cases kind
    | unknown text =>
      simp only [scanLine, read, control]
      constructor
      · intro ended
        cases ended
      · rintro ⟨_, _, _, known⟩
        cases known
    | _ =>
      simp only [scanLine, read, control, skipped, isUnknown, and_true]
      exact ended_iff

def Meets (files : Files) (path : Bytes) (taken : Bool) (number : Nat) (raw : Bytes) (p : Preprocessor)
    (lines : List SourceLine) (q : Preprocessor) : Prop :=
  if taken then Stands files path number raw p lines q else lines = [] ∧ q = p ∧ isUnknown (directiveOf raw) = false

def Branch (files : Files) (path : Bytes) (taken : Bool) (forest : Forest) (p : Preprocessor)
    (lines : List SourceLine) (q : Preprocessor) : Prop :=
  if taken then Yields files path forest p lines q else lines = [] ∧ q = p ∧ forest.isSilent = true

namespace Branch

variable {taken : Bool} {yes no rest : Forest}

theorem nil_iff : Branch files path taken .nil p out q ↔ out = [] ∧ q = p := by
  cases taken with
  | true =>
    constructor
    · intro yields
      cases (yields : Yields files path .nil p out q)
      exact ⟨rfl, rfl⟩
    · rintro ⟨rfl, rfl⟩
      exact Yields.nil
  | false => exact and_congr_right fun _ => and_iff_left rfl

theorem line_iff : Branch files path taken (.line number raw rest) p out q ↔
    ∃ lines others r, Meets files path taken number raw p lines r ∧ Branch files path taken rest r others q ∧
      out = lines ++ others := by
  cases taken with
  | true =>
    constructor
    · intro yields
      cases (yields : Yields files path (.line number raw rest) p out q) with
      | line first later => exact ⟨_, _, _, first, later, rfl⟩
    · rintro ⟨lines, others, r, first, later, rfl⟩
      exact Yields.line first later
  | false =>
    constructor
    · rintro ⟨rfl, rfl, silent⟩
      simp only [Forest.isSilent, Bool.and_eq_true, Bool.not_eq_true'] at silent
      exact ⟨[], [], _, ⟨rfl, rfl, silent.1⟩, ⟨rfl, rfl, silent.2⟩, rfl⟩
    · rintro ⟨_, _, _, ⟨rfl, rfl, known⟩, ⟨rfl, rfl, silent⟩, rfl⟩
      exact ⟨rfl, rfl, by simp only [Forest.isSilent, known, silent, Bool.not_false, Bool.and_self]⟩

theorem group_iff : Branch files path taken (.group name wanted yes no rest) p out q ↔
    isName name = true ∧ ∃ lines between others r s,
      Branch files path (taken && (p.macros.has name == wanted) != false) yes p lines r ∧
      Branch files path (taken && (p.macros.has name == wanted) != true) no r between s ∧
      Branch files path taken rest s others q ∧ out = lines ++ (between ++ others) := by
  cases taken with
  | true =>
    constructor
    · intro yields
      cases (yields : Yields files path (.group name wanted yes no rest) p out q) with
      | @group _ _ _ _ _ _ _ r _ lines others named silent branch later =>
        refine ⟨named, ?_⟩
        cases condition : p.macros.has name == wanted with
        | true =>
          rw [condition] at silent branch
          exact ⟨lines, [], others, r, r, branch, ⟨rfl, rfl, silent⟩, later, rfl⟩
        | false =>
          rw [condition] at silent branch
          exact ⟨[], lines, others, p, r, ⟨rfl, rfl, silent⟩, branch, later, rfl⟩
    · rintro ⟨named, lines, between, others, r, s, chosen, opposite, later, rfl⟩
      cases condition : p.macros.has name == wanted with
      | true =>
        rw [condition] at chosen opposite
        obtain ⟨rfl, rfl, silent⟩ := opposite
        exact Yields.group named (by rwa [condition]) (by rwa [condition]) later
      | false =>
        rw [condition] at chosen opposite
        obtain ⟨rfl, rfl, silent⟩ := chosen
        rw [List.nil_append]
        exact Yields.group named (by rwa [condition]) (by rwa [condition]) later
  | false =>
    constructor
    · rintro ⟨rfl, rfl, silent⟩
      simp only [Forest.isSilent, Bool.and_eq_true] at silent
      obtain ⟨⟨⟨named, first⟩, second⟩, later⟩ := silent
      exact ⟨named, [], [], [], _, _, ⟨rfl, rfl, first⟩, ⟨rfl, rfl, second⟩, ⟨rfl, rfl, later⟩, rfl⟩
    · rintro ⟨named, _, _, _, _, _, ⟨rfl, rfl, first⟩, ⟨rfl, rfl, second⟩, ⟨rfl, rfl, later⟩, rfl⟩
      exact ⟨rfl, rfl, by simp only [Forest.isSilent, named, first, second, later, Bool.and_self]⟩

end Branch

def Exact (files : Files) (marks : List Bytes) : Prop :=
  ∀ target q lines r, q.opened = marks → (q.expand files target = (.ok lines, r) ↔ Expands files target q lines r)

variable {marks : List Bytes}

theorem Stands.scanned (exact : Exact files marks) (marked : p.opened = marks) (taken : isTaken groups = true)
    (stands : Stands files path number raw p lines q) :
    scanLine (fun target q => q.expand files target) files path number groups p raw = (.ok (groups, lines), q) := by
  cases stands with
  | text plain => simp only [scanLine, plain, taken, if_true]
  | inclusion directive resolved expanded =>
    have ended := (exact _ _ _ _ marked).mpr expanded
    simp only [scanLine, directive, taken, resolved, ended, if_true]
  | define directive defined => simp only [scanLine, directive, control, taken, defined, if_true]
  | undef directive undefined => simp only [scanLine, directive, control, taken, undefined, if_true]
  | pragma directive => simp only [scanLine, directive, control, taken, if_true]

theorem stands_of_control (read : directiveOf raw = some directive) (plain : directive.isConditional = false)
    (other : ∀ argument, directive ≠ .include argument) (taken : isTaken groups = true)
    (controlled : control ⟨originOf path number, raw⟩ groups p directive = .ok (after, q)) :
    after = groups ∧ Stands files path number raw p [] q := by
  cases directive with
  | ifDefined | otherwise | endIf => cases plain
  | unknown => cases controlled
  | define argument =>
    simp only [control, taken, if_true] at controlled
    split at controlled
    · next macros defined =>
      cases controlled
      exact ⟨rfl, .define read defined⟩
    · cases controlled
  | undef name =>
    simp only [control, taken, if_true] at controlled
    split at controlled
    · next macros undefined =>
      cases controlled
      exact ⟨rfl, .undef read undefined⟩
    · cases controlled
  | pragma argument =>
    simp only [control, taken, if_true] at controlled
    cases controlled
    exact ⟨rfl, .pragma read⟩
  | _ argument => exact absurd rfl (other argument)

theorem scanLine_stands (exact : Exact files marks) (marked : p.opened = marks)
    (plain : ∀ directive ∈ directiveOf raw, directive.isConditional = false) (taken : isTaken groups = true) :
    scanLine (fun target q => q.expand files target) files path number groups p raw = (.ok (after, lines), q) ↔
      after = groups ∧ Stands files path number raw p lines q := by
  constructor
  · intro ended
    rw [scanLine] at ended
    split at ended
    · next read =>
      rw [if_pos taken] at ended
      cases ended
      exact ⟨rfl, .text read⟩
    · next argument read =>
      rw [if_pos taken] at ended
      split at ended
      · cases ended
      · next target resolved =>
        split at ended
        · cases ended
        · next expanded =>
          cases ended
          exact ⟨rfl, .inclusion read resolved ((exact _ _ _ _ marked).mp expanded)⟩
    · next directive other read =>
      split at ended
      · cases ended
      · next controlled =>
        cases ended
        exact stands_of_control read (plain _ read) other taken controlled
  · rintro ⟨rfl, stands⟩
    exact stands.scanned exact marked taken

theorem scanLine_meets (exact : Exact files marks) (marked : p.opened = marks)
    (plain : ∀ directive ∈ directiveOf raw, directive.isConditional = false) :
    scanLine (fun target q => q.expand files target) files path number groups p raw = (.ok (after, lines), q) ↔
      after = groups ∧ Meets files path (isTaken groups) number raw p lines q := by
  rw [Meets]
  cases taken : isTaken groups with
  | true => exact scanLine_stands exact marked plain taken
  | false => exact scanLine_silent plain taken

def Reads (files : Files) (path : Bytes) (number : Nat) (groups : List Group) (p : Preprocessor) (lines : List Bytes)
    (branch : List SourceLine → Preprocessor → Prop) : Prop :=
  ∀ ⦃after out q⦄, scanLines (fun target q => q.expand files target) files path number groups p lines =
    (.ok (after, out), q) ↔ after = groups ∧ branch out q

namespace Reads

variable {lines : List Bytes} {branch : List SourceLine → Preprocessor → Prop}

theorem opened (reads : Reads files path number groups p lines branch) (marked : p.opened = marks) (chosen : branch out q) :
    q.opened = marks := (opened_of_scanned (reads.mpr ⟨rfl, chosen⟩)).trans marked

theorem followed (reads : Reads files path number groups p lines branch) :
    scanLines (fun target q => q.expand files target) files path number groups p (lines ++ rest) = (.ok (after, out), q) ↔
      ∃ lines' others r, branch lines' r ∧ scanLines (fun target q => q.expand files target) files path
        (number + lines.length) groups r rest = (.ok (after, others), q) ∧ out = lines' ++ others := by
  rw [scanLines_append_ok]
  constructor
  · rintro ⟨_, lines', others, r, first, later, rfl⟩
    obtain ⟨rfl, chosen⟩ := reads.mp first
    exact ⟨lines', others, r, chosen, later, rfl⟩
  · rintro ⟨lines', others, r, chosen, later, rfl⟩
    exact ⟨_, lines', others, r, reads.mpr ⟨rfl, chosen⟩, later, rfl⟩

end Reads

theorem scanLines_branch (exact : Exact files marks) (nested : Nests number lines forest) (marked : p.opened = marks) :
    Reads files path number groups p lines (Branch files path (isTaken groups) forest p) := by
  induction nested generalizing groups p with
  | nil =>
    intro after out q
    rw [Branch.nil_iff]
    exact ended_iff
  | @line number raw lines rest plain others ih =>
    intro after out q
    have kept {lines : List SourceLine} {r : Preprocessor}
        (meets : Meets files path (isTaken groups) number raw p lines r) : r.opened = marks := by
      have kept := scanLine_opened files path (expand_opened files) number groups p raw
      rwa [(scanLine_meets exact marked plain).mpr ⟨rfl, meets⟩, marked] at kept
    simp only [scanLines_cons_ok, scanLine_meets exact marked plain, Branch.line_iff]
    constructor
    · rintro ⟨_, lines, others, r, ⟨rfl, meets⟩, later, rfl⟩
      obtain ⟨rfl, branch⟩ := (ih (kept meets)).mp later
      exact ⟨rfl, lines, others, r, meets, branch, rfl⟩
    · rintro ⟨rfl, lines, others, r, meets, branch, rfl⟩
      exact ⟨_, lines, others, r, ⟨rfl, meets⟩, (ih (kept meets)).mpr ⟨rfl, branch⟩, rfl⟩
  | @group _ _ _ name wanted _ _ _ _ opens _ closes _ ihBranch ih =>
    intro after out q
    have first : Reads files path _ (⟨isTaken groups, p.macros.has name == wanted, false⟩ :: groups) p _ _ := ihBranch marked
    rw [scanLines_opens opens, first.followed, Branch.group_iff]
    simp only [scanLines_quiet (scanLine_closes closes)]
    constructor
    · rintro ⟨named, lines, others, r, chosen, later, rfl⟩
      obtain ⟨rfl, remaining⟩ := (ih (first.opened marked chosen)).mp later
      exact ⟨rfl, named, lines, [], others, r, r, chosen, Branch.nil_iff.mpr ⟨rfl, rfl⟩, remaining, rfl⟩
    · rintro ⟨rfl, named, lines, between, others, r, s, chosen, opposite, remaining, rfl⟩
      obtain ⟨rfl, rfl⟩ := Branch.nil_iff.mp opposite
      exact ⟨named, lines, others, _, chosen, (ih (first.opened marked chosen)).mpr ⟨rfl, remaining⟩, rfl⟩
  | @groupElse _ _ _ _ name wanted _ outside _ _ _ _ opens _ turns _ closes _ ihBranch ihElse ih =>
    intro after out q
    have first : Reads files path _ (⟨isTaken groups, p.macros.has name == wanted, false⟩ :: groups) p _ _ := ihBranch marked
    have second {r : Preprocessor} (marked : r.opened = marks) :
        Reads files path _ (⟨isTaken groups, p.macros.has name == wanted, true⟩ :: groups) r outside _ := ihElse marked
    rw [scanLines_opens opens, first.followed, Branch.group_iff]
    constructor
    · rintro ⟨named, lines, _, r, chosen, turned, rfl⟩
      have kept := first.opened marked chosen
      rw [scanLines_quiet (scanLine_turns turns rfl), (second kept).followed] at turned
      obtain ⟨between, others, s, rejected, ended, rfl⟩ := turned
      rw [scanLines_quiet (scanLine_closes closes), ih ((second kept).opened kept rejected)] at ended
      exact ⟨ended.1, named, lines, between, others, r, s, chosen, rejected, ended.2, rfl⟩
    · rintro ⟨rfl, named, lines, between, others, r, s, chosen, rejected, remaining, rfl⟩
      have kept := first.opened marked chosen
      refine ⟨named, lines, _, r, chosen, ?_, rfl⟩
      rw [scanLines_quiet (scanLine_turns turns rfl), (second kept).followed]
      refine ⟨between, others, s, rejected, ?_, rfl⟩
      rw [scanLines_quiet (scanLine_closes closes), ih ((second kept).opened kept rejected)]
      exact ⟨rfl, remaining⟩

/-! Lines that are read without an error nest. -/

def Upto (directive : Directive) (next : Nat → List Bytes → Prop) (number : Nat) (lines : List Bytes) : Prop :=
  ∃ forest inside raw rest, lines = inside ++ raw :: rest ∧ Nests number inside forest ∧
    directiveOf raw = some directive ∧ next (number + inside.length + 1) rest

def Closes : List Bool → Nat → List Bytes → Prop
  | [], number, lines => ∃ forest, Nests number lines forest
  | true :: outer, number, lines => Upto .endIf (Closes outer) number lines
  | false :: outer, number, lines =>
    Upto .endIf (Closes outer) number lines ∨ Upto .otherwise (Upto .endIf (Closes outer)) number lines

def Leads (number : Nat) (front : List Bytes) : Prop :=
  ∀ lines forest, Nests (number + front.length) lines forest → ∃ whole, Nests number (front ++ lines) whole

section Fronts

variable {front lines : List Bytes} {turned : List Bool}

theorem Upto.prepend (leads : Leads number front) (upto : Upto directive next (number + front.length) lines) :
    Upto directive next number (front ++ lines) := by
  obtain ⟨forest, inside, raw, rest, rfl, nested, read, later⟩ := upto
  obtain ⟨whole, longer⟩ := leads inside forest nested
  refine ⟨whole, front ++ inside, raw, rest, (List.append_assoc ..).symm, longer, read, ?_⟩
  rwa [List.length_append, ← Nat.add_assoc]

theorem Closes.prepend (leads : Leads number front) (closes : Closes turned (number + front.length) lines) :
    Closes turned number (front ++ lines) := by
  match turned with
  | [] =>
    obtain ⟨forest, nested⟩ := closes
    exact leads lines forest nested
  | true :: _ => exact Upto.prepend leads closes
  | false :: _ => exact closes.imp (Upto.prepend leads) (Upto.prepend leads)

theorem Closes.line (plain : ∀ directive ∈ directiveOf raw, directive.isConditional = false)
    (closes : Closes turned (number + 1) lines) : Closes turned number (raw :: lines) := by
  have leads : Leads number [raw] := by
    intro lines forest nested
    exact ⟨_, .line plain nested⟩
  exact Closes.prepend leads closes

theorem length_group (number : Nat) (first last : Bytes) (inside : List Bytes) :
    number + (first :: (inside ++ [last])).length = number + 1 + inside.length + 1 := by
  simp only [List.length_cons, List.length_append, List.length_nil]
  omega

theorem length_groupElse (number : Nat) (first middle last : Bytes) (inside outside : List Bytes) :
    number + (first :: (inside ++ middle :: (outside ++ [last]))).length =
      number + 1 + inside.length + 1 + outside.length + 1 := by
  simp only [List.length_cons, List.length_append, List.length_nil]
  omega

variable {name : Bytes} {wanted : Bool}

theorem leads_group (opens : directiveOf first = some (.ifDefined name wanted)) (branch : Nests (number + 1) inside yes)
    (closes : directiveOf last = some .endIf) : Leads number (first :: (inside ++ [last])) := by
  intro lines forest nested
  rw [length_group] at nested
  rw [List.cons_append, List.append_assoc]
  exact ⟨_, .group opens branch closes nested⟩

theorem leads_groupElse (opens : directiveOf first = some (.ifDefined name wanted))
    (branch : Nests (number + 1) inside yes) (turns : directiveOf middle = some .otherwise)
    (opposite : Nests (number + 1 + inside.length + 1) outside no) (closes : directiveOf last = some .endIf) :
    Leads number (first :: (inside ++ middle :: (outside ++ [last]))) := by
  intro lines forest nested
  rw [length_groupElse] at nested
  rw [List.cons_append, List.append_assoc, List.cons_append, List.append_assoc]
  exact ⟨_, .groupElse opens branch turns opposite closes nested⟩

theorem Closes.opens (opens : directiveOf raw = some (.ifDefined name wanted))
    (closes : Closes (false :: turned) (number + 1) lines) : Closes turned number (raw :: lines) := by
  rcases closes with ⟨yes, inside, last, rest, rfl, branch, ended, later⟩ |
    ⟨yes, inside, middle, _, rfl, branch, turns, no, outside, last, rest, rfl, opposite, ended, later⟩
  · rw [← length_group number raw last inside] at later
    have whole := later.prepend (leads_group opens branch ended)
    rwa [List.cons_append, List.append_assoc] at whole
  · rw [← length_groupElse number raw middle last inside outside] at later
    have whole := later.prepend (leads_groupElse opens branch turns opposite ended)
    rwa [List.cons_append, List.append_assoc, List.cons_append, List.append_assoc] at whole

end Fronts

theorem Closes.turns (turns : directiveOf raw = some .otherwise) (closes : Closes (true :: turned) (number + 1) lines) :
    Closes (false :: turned) number (raw :: lines) :=
  .inr ⟨.nil, [], raw, lines, rfl, .nil, turns, closes⟩

theorem Closes.ends (ended : directiveOf raw = some .endIf) (closes : Closes turned (number + 1) lines) (hasElse : Bool) :
    Closes (hasElse :: turned) number (raw :: lines) := by
  have upto : Upto .endIf (Closes turned) number (raw :: lines) := ⟨.nil, [], raw, lines, rfl, .nil, ended, closes⟩
  cases hasElse with
  | true => exact upto
  | false => exact .inl upto

theorem control_groups (plain : directive.isConditional = false)
    (controlled : control line groups p directive = .ok (after, q)) : after = groups := by
  rw [control.eq_def] at controlled
  repeat' split at controlled
  all_goals first
    | cases plain; done
    | cases controlled <;> rfl

theorem scanLine_groups (plain : ∀ directive ∈ directiveOf raw, directive.isConditional = false)
    (scanned : scanLine inner files path number groups p raw = (.ok (after, lines), q)) : after = groups := by
  rw [scanLine] at scanned
  split at scanned
  · cases scanned
    rfl
  · repeat' split at scanned
    all_goals cases scanned <;> rfl
  · next read =>
    split at scanned
    · cases scanned
    · next controlled =>
      cases scanned
      exact control_groups (plain _ read) controlled

theorem Closes.scanned (scanned : scanLine inner files path number groups p raw = (.ok (after, others), q))
    (closes : Closes (after.map (·.hasElse)) (number + 1) lines) :
    Closes (groups.map (·.hasElse)) number (raw :: lines) := by
  by_cases plain : ∀ directive ∈ directiveOf raw, directive.isConditional = false
  · rw [scanLine_groups plain scanned] at closes
    exact closes.line plain
  · simp only [Classical.not_forall] at plain
    obtain ⟨directive, read, conditional⟩ := plain
    cases directive with
    | ifDefined name wanted =>
      obtain ⟨_, rfl, _⟩ := (scanLine_opens read).mp scanned
      exact closes.opens read
    | otherwise =>
      cases groups with
      | nil => simp only [scanLine, Option.mem_def.mp read, control] at scanned; cases scanned
      | cons group outer =>
        cases second : group.hasElse with
        | true => simp only [scanLine, Option.mem_def.mp read, control, second, if_true] at scanned; cases scanned
        | false =>
          obtain ⟨rfl, _⟩ := (scanLine_turns read second).mp scanned
          rw [List.map_cons, second]
          exact closes.turns read
    | endIf =>
      cases groups with
      | nil => simp only [scanLine, Option.mem_def.mp read, control] at scanned; cases scanned
      | cons group outer =>
        obtain ⟨rfl, _⟩ := (scanLine_closes read).mp scanned
        exact closes.ends read _
    | _ => exact absurd rfl conditional

theorem closes_of_scanned (scanned : scanLines inner files path number groups p lines = (.ok ([], out), q)) :
    Closes (groups.map (·.hasElse)) number lines := by
  induction lines generalizing number groups p out with
  | nil =>
    cases scanned
    exact ⟨.nil, .nil⟩
  | cons raw rest ih =>
    obtain ⟨after, lines, others, r, first, later, rfl⟩ := scanLines_cons_ok.mp scanned
    exact (ih later).scanned first

theorem nests_of_scanned (scanned : scanLines inner files path number [] p lines = (.ok ([], out), q)) :
    ∃ forest, Nests number lines forest :=
  closes_of_scanned scanned

end Scanning

/-! Whole files. -/

variable {p q : Preprocessor} {lines : List SourceLine}

theorem scanFile_ok : scanFile inner files path p source = (.ok lines, q) ↔
    scanLines inner files path 1 [] p source = (.ok ([], lines), q) := by
  rw [scanFile]
  constructor
  · intro scanned
    split at scanned
    · cases scanned
    · next groups out r read =>
      cases groups with
      | nil =>
        cases scanned
        exact read
      | cons => cases scanned
  · intro read
    simp only [read, List.isEmpty_nil, if_true]

theorem expandOnce_ok : expandOnce inner files path p = (.ok lines, q) ↔
    ∃ content r, files.absolute path ∉ p.opened ∧ files.read path = .ok content ∧
      scanLines inner files path 1 [] (p.opening (files.absolute path)) (linesOf content) = (.ok ([], lines), r) ∧
      q = r.closing (files.absolute path) := by
  rw [expandOnce]
  constructor
  · intro expanded
    split at expanded
    · cases expanded
    · next fresh =>
      rw [List.contains_iff_mem] at fresh
      split at expanded
      · cases expanded
      · next content readable =>
        obtain ⟨ended, rfl⟩ := Prod.mk.inj expanded
        exact ⟨content, _, fresh, readable, scanFile_ok.mp (Prod.ext ended rfl), rfl⟩
  · rintro ⟨content, r, fresh, readable, scanned, rfl⟩
    have new : ¬p.opened.contains (files.absolute path) = true := by rwa [List.contains_iff_mem]
    simp only [if_neg new, readable, scanFile_ok.mpr scanned]

theorem expand_iff (files : Files) (path : Bytes) (p : Preprocessor) (lines : List SourceLine) (q : Preprocessor) :
    p.expand files path = (.ok lines, q) ↔ Expands files path p lines q := by
  induction path, p using expand_induction files generalizing lines q with
  | step path p ih =>
    have exact {content} (readable : files.read path = .ok content) (fresh : files.absolute path ∉ p.opened) :
        Exact files (files.absolute path :: p.opened) := by
      intro target r lines s marked
      exact ih content readable fresh target r marked lines s
    rw [expand_eq, expandOnce_ok]
    constructor
    · rintro ⟨content, r, fresh, readable, scanned, rfl⟩
      obtain ⟨forest, nested⟩ := nests_of_scanned scanned
      obtain ⟨_, yields⟩ := (scanLines_branch (exact readable fresh) nested rfl).mp scanned
      exact .file fresh readable nested yields
    · intro expands
      cases expands with
      | file fresh readable nested yields =>
        exact ⟨_, _, fresh, readable, (scanLines_branch (exact readable fresh) nested rfl).mpr ⟨rfl, yields⟩, rfl⟩

theorem Reaches.fails (reached : Reaches files path p chain target q) (readable : files.read target = .ok content)
    (tangled : ¬∃ forest, Nests 1 (linesOf content) forest) :
    ∃ d r, p.expand files path = (.error d, r) := by
  cases expanded : q.expand files target with
  | mk result r =>
    cases result with
    | ok lines =>
      rw [expand_eq, expandOnce_ok] at expanded
      obtain ⟨other, s, _, same, scanned, _⟩ := expanded
      cases readable.symm.trans same
      exact absurd (nests_of_scanned scanned) tangled
    | error d => exact ⟨d, _, Prod.ext (reached.error (congrArg Prod.fst expanded)) rfl⟩

/-- Conditional compilation is structured: a file expands exactly to what its forest stands for, and every
line has its origin. A file whose groups do not nest makes each expansion fail that comes to it. -/
theorem expand_structured (files : Files) (path : Bytes) (p : Preprocessor) :
    (∀ lines q, p.expand files path = (.ok lines, q) ↔ Expands files path p lines q) ∧
    (∀ lines q, p.expand files path = (.ok lines, q) →
      (Source.ofLines lines).lines.size = (Source.ofLines lines).origins.size) ∧
    (∀ chain target q content, Reaches files path p chain target q → files.read target = .ok content →
      (¬∃ forest, Nests 1 (linesOf content) forest) → ∃ d r, p.expand files path = (.error d, r)) := by
  refine ⟨expand_iff files path p, ?_, ?_⟩
  · intro lines q _
    simp only [Source.ofLines, List.size_toArray, List.length_map]
  · intro chain target q content reached readable tangled
    exact reached.fails readable tangled

example : ((Preprocessor.ofSettings {}).expand
    ⟨[(["m"], "#define A\n#ifdef A\n#ifdef B\n#include \"gone\"\n#else\n#include \"a\"\n#endif\n#endif\nA"),
      (["a"], "#undef A\n#define A 2")], [], []⟩ "m").1.toOption = some [⟨"2", "file: m, line: 9"⟩] := by decide +kernel

end Cb.Preprocess
