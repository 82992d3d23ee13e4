import Cb.Proofs.GoldenRecords
import Mathlib.Data.List.Nodup

/-! What the test host does with each source: it is named once, it is planned for once, and a result that is no
failure says why. -/

namespace Cb

theorem Bytes.lessThan_iff (first second : Bytes) : Bytes.lessThan first second = true ↔ first < second := by
  induction first generalizing second with
  | nil => cases second <;> simp [lessThan]
  | cons a as ih =>
    cases second with
    | nil => simp [lessThan]
    | cons b bs => simp [lessThan, List.cons_lt_cons_iff, ih]

namespace Golden

/-! Results by file. -/

def TestResult.upTo (a b : TestResult) : Bool := !Bytes.lessThan b.file a.file

theorem TestResult.upTo_iff (a b : TestResult) : a.upTo b = true ↔ a.file ≤ b.file := by
  rw [upTo, Bool.not_eq_true', ← Bool.not_eq_true, Bytes.lessThan_iff, List.not_lt]

def sorted (results : List TestResult) : List TestResult := results.mergeSort TestResult.upTo

theorem sorted_pairwise (results : List TestResult) : (sorted results).Pairwise (·.upTo · = true) := by
  refine List.pairwise_mergeSort (fun a b c => ?_) (fun a b => ?_) results
  · rw [TestResult.upTo_iff, TestResult.upTo_iff, TestResult.upTo_iff]
    exact List.le_trans
  · rw [Bool.or_eq_true, TestResult.upTo_iff, TestResult.upTo_iff]
    exact List.le_total a.file b.file

theorem sorted_eq_of_perm (same : first.Perm second) (distinct : (first.map (·.file)).Nodup) :
    sorted first = sorted second := by
  have members {result : TestResult} (inside : result ∈ sorted second) : result ∈ first :=
    same.mem_iff.mpr ((List.mergeSort_perm second _).mem_iff.mp inside)
  refine List.Perm.eq_of_pairwise (fun a b left right ab ba => ?_) (sorted_pairwise first) (sorted_pairwise second)
    (((List.mergeSort_perm first _).trans same).trans (List.mergeSort_perm second _).symm)
  rw [TestResult.upTo_iff] at ab ba
  exact List.inj_on_of_nodup_map distinct ((List.mergeSort_perm first _).mem_iff.mp left) (members right)
    (List.le_antisymm ab ba)

/-! The sources. -/

variable {host : Host} {files : Files} {options : Options} {p : Plan} {sources : List Bytes} {Known : Bytes → Bytes → Prop}

theorem expand_nodup (unique : found.Nodup) (expanded : expand files found patterns = .ok sources) : sources.Nodup := by
  induction patterns generalizing found with
  | nil =>
    cases expanded
    exact unique
  | cons pattern rest ih =>
    rw [expand] at expanded
    split at expanded
    · cases expanded
    · next paths matched =>
      refine ih ?_ expanded
      refine List.foldlRecOn (motive := List.Nodup) paths _ unique fun kept keeps path _ => ?_
      dsimp only
      split
      · exact keeps
      · next fresh =>
        simp only [Bool.or_eq_true, List.contains_iff_mem, not_or] at fresh
        rw [← List.concat_eq_append]
        exact keeps.concat fresh.1

def Plan.file : Plan → Bytes
  | .settled result => result.file
  | .run file _ => file

def Listed (options : Options) (file : Bytes) : Prop :=
  file ∈ words options.skipFiles ∨ Path.base file ∈ words options.skipFiles

inductive Planned (host : Host) (options : Options) (files : Files) (Known : Bytes → Bytes → Prop) (file : Bytes) :
    Plan → Prop
  | listed : Listed options file →
      Planned host options files Known file (.settled { file, status := .skip, message := "Explicitly skipped" })
  | unreadable {error : FileError} : files.read file = .error error →
      Planned host options files Known file
        (.settled { file, status := .error, message := "Failed to read file for hashing: " ++ error.message })
  | repeated {content earlier : Bytes} : files.read file = .ok content → Known (host.hash content) earlier →
      Planned host options files Known file
        (.settled { file, status := .skip, message := "Content is identical to " ++ earlier })
  | new {content : Bytes} : files.read file = .ok content →
      Planned host options files Known file (.run file (host.hash content))

theorem Planned.mono (planned : Planned host options files Known file p)
    (wider : ∀ hash earlier, Known hash earlier → Wider hash earlier) : Planned host options files Wider file p := by
  cases planned with
  | listed isListed => exact .listed isListed
  | unreadable unread => exact .unreadable unread
  | repeated readable tested => exact .repeated readable (wider _ _ tested)
  | new readable => exact .new readable

theorem Planned.file {file : Bytes} (planned : Planned host options files Known file p) : p.file = file := by
  cases planned <;> rfl

theorem Planned.readable {source file hash : Bytes} (planned : Planned host options files Known source p)
    (runs : p = .run file hash) : ∃ content, files.read file = .ok content ∧ host.hash content = hash := by
  cases planned with
  | listed | unreadable | repeated => cases runs
  | @new content readable =>
    obtain ⟨same, hashed⟩ := Plan.run.inj runs
    exact ⟨content, same ▸ readable, hashed⟩

theorem plan_cons (host : Host) (options : Options) (files : Files) (seen : List (Bytes × Bytes)) (file : Bytes)
    (rest : List Bytes) :
    ∃ first others, plan host options files seen (file :: rest) = first :: plan host options files others rest ∧
      Planned host options files (fun hash earlier => (hash, earlier) ∈ seen) file first ∧
      ∀ hash earlier, (hash, earlier) ∈ others → (hash, earlier) ∈ seen ∨ first = .run earlier hash := by
  rw [plan]
  split
  · next skip => exact ⟨_, seen, rfl, .listed (by simpa [Listed] using skip), fun _ _ => Or.inl⟩
  split
  · next error unread => exact ⟨_, seen, rfl, .unreadable unread, fun _ _ => Or.inl⟩
  next content readable =>
  dsimp only
  split
  · next earlier found =>
    refine ⟨_, seen, rfl, .repeated readable ?_, fun _ _ => Or.inl⟩
    have same : earlier.1 = host.hash content := by simpa using List.find?_some found
    rw [← same]
    exact List.mem_of_find?_eq_some found
  · refine ⟨_, _, rfl, .new readable, fun hash earlier member => ?_⟩
    rcases List.mem_append.mp member with known | added
    · exact .inl known
    · cases List.mem_singleton.mp added
      exact .inr rfl

theorem plan_files (host : Host) (options : Options) (files : Files) (seen : List (Bytes × Bytes))
    (sources : List Bytes) : (plan host options files seen sources).map Plan.file = sources := by
  induction sources generalizing seen with
  | nil => rfl
  | cons file rest ih =>
    obtain ⟨first, others, shape, planned, -⟩ := plan_cons host options files seen file rest
    rw [shape, List.map_cons, planned.file, ih]

theorem exists_planned (member : p ∈ plan host options files seen sources) :
    ∃ file, Planned host options files
      (fun hash earlier => (hash, earlier) ∈ seen ∨ .run earlier hash ∈ plan host options files seen sources)
      file p := by
  induction sources generalizing seen with
  | nil => cases member
  | cons file rest ih =>
    obtain ⟨first, others, shape, planned, known⟩ := plan_cons host options files seen file rest
    -- What the rest has seen was seen before, or it is this source, which then stands in front as one that will run.
    rw [shape] at member ⊢
    rcases List.mem_cons.mp member with rfl | inside
    · exact ⟨file, planned.mono fun hash earlier => Or.inl⟩
    · obtain ⟨source, plannedLater⟩ := ih inside
      refine ⟨source, plannedLater.mono fun hash earlier tested => ?_⟩
      rcases tested with before | runs
      · exact (known hash earlier before).imp_right fun (same : first = _) => same ▸ List.mem_cons_self
      · exact .inr (List.mem_cons_of_mem first runs)

/-! Results. -/

def Plan.result (host : Host) (options : Options) (files : Files) : Plan → TestResult
  | .settled result => result
  | .run file hash => (testSource host options files file hash).1

def Plan.isDone (options : Options) : Plan → Bool
  | .settled _ => true
  | .run _ _ => 0 < options.jobs

inductive Tested (host : Host) (options : Options) (files : Files) (file hash : Bytes) : TestResult → Prop
  | unrecorded {error : FileError} : files.read (goldenPath options file) = .error error → error.fault = .missing →
      Tested host options files file hash
        { file, status := .skip, message := "Cannot test without a corresponding .json golden file" }
  | broken {result : TestResult} : result.file = file → result.status = .error →
      Tested host options files file hash result
  | compared {content : Bytes} {want : Golden} {done : Compilation} :
      files.read (goldenPath options file) = .ok content → parse? content = some want →
      compileSource host options files file hash = .ok done →
      Tested host options files file hash (judge options file want done)

theorem tested_testSource (host : Host) (options : Options) (files : Files) (file hash : Bytes) :
    Tested host options files file hash (testSource host options files file hash).1 := by
  rw [testSource]
  dsimp only
  split
  · next error unread =>
    split
    · next missing => exact .unrecorded unread missing
    · exact .broken rfl rfl
  next content readable =>
  split
  · exact .broken rfl rfl
  next want parsed =>
  split
  · exact .broken rfl rfl
  · next done compiled => exact .compared readable parsed compiled

theorem Tested.file {file hash : Bytes} (tested : Tested host options files file hash result) :
    result.file = file := by
  cases tested with
  | unrecorded => rfl
  | broken same _ => exact same
  | compared => rfl

theorem Plan.result_file (host : Host) (options : Options) (files : Files) (p : Plan) :
    (p.result host options files).file = p.file := by
  cases p with
  | settled result => rfl
  | run file hash => exact (tested_testSource host options files file hash).file

theorem carryOut_results (host : Host) (options : Options) (files : Files) (plans : List Plan) :
    (plans.flatMap (Plan.carryOut host options files)).map (·.1)
      = (plans.filter (Plan.isDone options)).map (Plan.result host options files) := by
  induction plans with
  | nil => rfl
  | cons p rest ih =>
    rw [List.flatMap_cons, List.map_append, ih]
    cases p with
    | settled result => rfl
    | run file hash => by_cases works : 0 < options.jobs <;> simp [Plan.carryOut, Plan.isDone, Plan.result, works]

theorem all_done_iff (options : Options) (plans : List Plan) :
    (∀ p ∈ plans, p.isDone options = true) ↔ 0 < options.jobs ∨ ∀ file hash, .run file hash ∉ plans := by
  constructor
  · intro done
    refine or_iff_not_imp_left.mpr fun idle file hash runs => idle ?_
    simpa [Plan.isDone] using done _ runs
  · rintro (works | none) p member
    · cases p <;> simp [Plan.isDone, works]
    · cases p with
      | settled result => rfl
      | run file hash => exact absurd member (none file hash)

theorem judge_cases (options : Options) (file : Bytes) (want : Golden) (done : Compilation) :
    (judge options file want done).status = .pass ∨ (judge options file want done).status = .fail := by
  rw [judge_status]
  split
  · exact .inl rfl
  · exact .inr rfl

inductive Accounted (host : Host) (options : Options) (files : Files) (sources : List Bytes) : TestResult → Prop
  | listed {file : Bytes} : Listed options file →
      Accounted host options files sources { file, status := .skip, message := "Explicitly skipped" }
  | repeated {file content earlier original : Bytes} :
      files.read file = .ok content → files.read earlier = .ok original → host.hash original = host.hash content →
      .run earlier (host.hash original) ∈ plan host options files [] sources →
      Accounted host options files sources
        { file, status := .skip, message := "Content is identical to " ++ earlier }
  | unrecorded {file : Bytes} {error : FileError} :
      files.read (goldenPath options file) = .error error → error.fault = .missing →
      Accounted host options files sources
        { file, status := .skip, message := "Cannot test without a corresponding .json golden file" }
  | matched {file content recorded : Bytes} {want : Golden} {done : Compilation} :
      files.read file = .ok content → files.read (goldenPath options file) = .ok recorded → parse? recorded = some want →
      compileSource host options files file (host.hash content) = .ok done →
      want.exitCode = done.golden.exitCode →
      relevant options.ignored want.asm = relevant options.ignored done.golden.asm →
      relevant options.ignored want.stderr = relevant options.ignored done.golden.stderr →
      Accounted host options files sources (judge options file want done)

theorem accounted_iff (member : p ∈ plan host options files [] sources) :
    isFailure (p.result host options files) = false ↔
      Accounted host options files sources (p.result host options files) := by
  constructor
  · intro succeeds
    obtain ⟨file, planned⟩ := exists_planned member
    cases planned with
    | listed isListed => exact .listed isListed
    | unreadable unread => cases succeeds
    | @repeated content earlier readable known =>
      have runs := known.resolve_left (List.not_mem_nil)
      obtain ⟨source, first⟩ := exists_planned runs
      obtain ⟨original, readableFirst, same⟩ := first.readable rfl
      exact .repeated readable readableFirst same (by rw [same]; exact runs)
    | @new content readable =>
      change isFailure (testSource host options files file (host.hash content)).1 = false at succeeds
      show Accounted host options files sources (testSource host options files file (host.hash content)).1
      have tested := tested_testSource host options files file (host.hash content)
      generalize (testSource host options files file (host.hash content)).1 = result at succeeds tested
      cases tested with
      | unrecorded unread missing => exact .unrecorded unread missing
      | broken _ fails => simp [isFailure, fails] at succeeds
      | @compared recorded want done found parsed compiled =>
        rcases judge_cases options file want done with passes | fails
        · obtain ⟨exitCode, asm, stderr⟩ := (judge_pass_iff options file want done).mp passes
          exact .matched readable found parsed compiled exitCode asm stderr
        · simp [isFailure, fails] at succeeds
  · intro accounted
    generalize p.result host options files = result at accounted
    cases accounted with
    | listed | repeated | unrecorded => rfl
    | @matched file _ _ want done _ _ _ _ exitCode asm stderr =>
      have passes := (judge_pass_iff options file want done).mpr ⟨exitCode, asm, stderr⟩
      rw [isFailure, passes]
      rfl

end Golden

end Cb
