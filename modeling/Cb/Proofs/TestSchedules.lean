import Cb.Proofs.TestPlans

/-! Tests run side by side: one feeder settles the sources that need no compiler and queues the others, workers take
them from the queue, and the results are gathered when every worker has left. Both queues have room for every source.
However the steps interleave, a run ends, and it gathers the same results. -/

namespace Cb.Golden

structure Task where
  file : Bytes
  hash : Bytes

def Task.plan (task : Task) : Plan := .run task.file task.hash

inductive Worker where
  | idle
  | busy (task : Task)

def Worker.task? : Worker → Option Task
  | .idle => none
  | .busy task => some task

def Worker.tasks (workers : List Worker) : List Task := workers.filterMap Worker.task?

@[simp]
theorem Worker.tasks_nil : Worker.tasks [] = [] := rfl

@[simp]
theorem Worker.tasks_idle (workers : List Worker) : Worker.tasks (.idle :: workers) = Worker.tasks workers := rfl

@[simp]
theorem Worker.tasks_busy (task : Task) (workers : List Worker) :
    Worker.tasks (.busy task :: workers) = task :: Worker.tasks workers := rfl

@[simp]
theorem Worker.tasks_append (first second : List Worker) :
    Worker.tasks (first ++ second) = Worker.tasks first ++ Worker.tasks second := List.filterMap_append

@[simp]
theorem Worker.tasks_replicate_idle (count : Nat) : Worker.tasks (List.replicate count .idle) = [] := by
  induction count with
  | zero => rfl
  | succ count ih => exact ih

structure Pool where
  plans : List Plan
  tasks : List Task := []
  closed : Bool := false
  workers : List Worker
  results : List TestResult := []
  gathered : Option (List TestResult) := none

namespace Pool

section

variable (host : Host) (options : Options) (files : Files) (room : Nat)

def start (plans : List Plan) : Pool where
  plans := plans
  workers := List.replicate options.jobs.toNat .idle

/-- One step of the feeder or of a worker. A queue takes no more than there is room for. -/
inductive Step : Pool → Pool → Prop
  | settle {pool : Pool} {result : TestResult} {rest : List Plan} :
      pool.plans = .settled result :: rest → pool.results.length < room →
      Step pool { pool with plans := rest, results := pool.results ++ [result] }
  | queue {pool : Pool} {task : Task} {rest : List Plan} :
      pool.plans = task.plan :: rest → pool.tasks.length < room →
      Step pool { pool with plans := rest, tasks := pool.tasks ++ [task] }
  | close {pool : Pool} : pool.plans = [] → pool.closed = false → Step pool { pool with closed := true }
  | take {pool : Pool} {before after : List Worker} {task : Task} {rest : List Task} :
      pool.workers = before ++ .idle :: after → pool.tasks = task :: rest →
      Step pool { pool with tasks := rest, workers := before ++ .busy task :: after }
  | finish {pool : Pool} {before after : List Worker} {task : Task} :
      pool.workers = before ++ .busy task :: after → pool.results.length < room →
      Step pool { pool with
        workers := before ++ .idle :: after
        results := pool.results ++ [(testSource host options files task.file task.hash).1] }
  | leave {pool : Pool} {before after : List Worker} :
      pool.workers = before ++ .idle :: after → pool.tasks = [] → pool.closed = true →
      Step pool { pool with workers := before ++ after }
  | wait {pool : Pool} : pool.closed = true → pool.workers = [] → pool.gathered = none →
      Step pool { pool with gathered := some [] }
  | collect {pool : Pool} {kept : List TestResult} {result : TestResult} {rest : List TestResult} :
      pool.gathered = some kept → pool.results = result :: rest →
      Step pool { pool with gathered := some (kept ++ [result]), results := rest }

inductive Reaches (first : Pool) : Nat → Pool → Prop
  | refl : Reaches first 0 first
  | step {count : Nat} {pool next : Pool} : Reaches first count pool → Step host options files room pool next →
      Reaches first (count + 1) next

end

def Ended (pool : Pool) : Prop := pool.gathered.isSome = true ∧ pool.results = []

def due (host : Host) (options : Options) (files : Files) (plans : List Plan) : List TestResult :=
  (plans.filter (Plan.isDone options)).map (Plan.result host options files)

def ledger (host : Host) (options : Options) (files : Files) (pool : Pool) : List TestResult :=
  pool.gathered.getD [] ++ pool.results ++
    due host options files ((Worker.tasks pool.workers ++ pool.tasks).map Task.plan ++ pool.plans)

def weight (pool : Pool) : Nat :=
  4 * pool.plans.length + 3 * pool.tasks.length + 2 * (Worker.tasks pool.workers).length + pool.results.length
    + pool.workers.length + (if pool.closed then 0 else 1) + (if pool.gathered.isSome then 0 else 1)

variable {host : Host} {options : Options} {files : Files} {room : Nat} {pool next : Pool}

theorem Step.weight (step : Step host options files room pool next) : next.weight < pool.weight := by
  cases step with
  | settle plans => simp [Pool.weight, plans]; omega
  | queue plans => simp [Pool.weight, plans]; omega
  | close plans isOpen => simp [Pool.weight, isOpen]
  | take workers tasks => simp [Pool.weight, workers, tasks]; omega
  | finish workers => simp [Pool.weight, workers]; omega
  | leave workers => simp [Pool.weight, workers]
  | wait _ _ unset => simp [Pool.weight, unset]
  | collect gathered results => simp [Pool.weight, gathered, results]

theorem Reaches.count_le {count : Nat} (reached : Reaches host options files room first count pool) :
    count + pool.weight ≤ first.weight := by
  induction reached with
  | refl => omega
  | step _ step ih =>
    have lighter := step.weight
    omega

/-! What stays true in every pool of a run. -/

structure Sound (host : Host) (options : Options) (files : Files) (plans : List Plan) (pool : Pool) : Prop where
  ledger : (pool.ledger host options files).Perm (due host options files plans)
  places : (pool.gathered.getD []).length + pool.results.length + (Worker.tasks pool.workers).length
    + pool.tasks.length + pool.plans.length = plans.length
  crew : pool.workers.length ≤ options.jobs.toNat
  served : pool.workers.length = options.jobs.toNat ∨ (pool.closed = true ∧ pool.tasks = [])
  closes : pool.closed = true → pool.plans = []
  waits : pool.gathered.isSome = true → pool.closed = true ∧ pool.workers = []

theorem sound_start (plans : List Plan) : Sound host options files plans (start options plans) where
  ledger := by simp [Pool.ledger, start]
  places := by simp [start]
  crew := by simp [start]
  served := by simp [start]
  closes := by simp [start]
  waits := by simp [start]

theorem due_append (first second : List Plan) :
    due host options files (first ++ second) = due host options files first ++ due host options files second := by
  rw [due, List.filter_append, List.map_append, due, due]

theorem due_settled (result : TestResult) (rest : List Plan) :
    due host options files (.settled result :: rest) = result :: due host options files rest := rfl

theorem due_task (works : 0 < options.jobs) (task : Task) (rest : List Plan) :
    due host options files (task.plan :: rest)
      = (testSource host options files task.file task.hash).1 :: due host options files rest := by
  simp [due, Task.plan, Plan.isDone, Plan.result, works]

theorem due_perm (host : Host) (options : Options) (files : Files) (same : first.Perm second) :
    (due host options files first).Perm (due host options files second) :=
  (same.filter _).map _

theorem Step.ledger (step : Step host options files room pool next) (crew : pool.workers.length ≤ options.jobs.toNat) :
    (next.ledger host options files).Perm (pool.ledger host options files) := by
  cases step with
  | settle plans =>
    rw [Pool.ledger, Pool.ledger, plans, due_append, due_append, due_settled]
    simp only [List.append_assoc, List.singleton_append]
    exact (List.perm_middle.symm.append_left _).append_left _
  | queue plans => simp [Pool.ledger, plans]
  | close => rfl
  | take workers tasks =>
    rw [Pool.ledger, Pool.ledger, workers, tasks]
    refine (due_perm host options files (List.Perm.append_right _ (List.Perm.map _ ?_))).append_left _
    simp only [Worker.tasks_append, Worker.tasks_busy, Worker.tasks_idle, List.append_assoc]
    exact (List.perm_middle.symm.append_left _)
  | @finish before after task workers =>
    -- There is a worker, so that tasks are carried out.
    have works : 0 < options.jobs := by
      have present : .busy task ∈ pool.workers := workers ▸ List.mem_append_right _ List.mem_cons_self
      have := List.length_pos_of_mem present
      omega
    have moved : (Worker.tasks before ++ task :: Worker.tasks after ++ pool.tasks).Perm
        (task :: (Worker.tasks before ++ Worker.tasks after ++ pool.tasks)) :=
      List.perm_middle.append_right pool.tasks
    have same := due_perm host options files ((moved.map Task.plan).append_right pool.plans)
    rw [List.map_cons, List.cons_append, due_task works] at same
    rw [Pool.ledger, Pool.ledger, workers]
    simp only [Worker.tasks_append, Worker.tasks_busy, Worker.tasks_idle]
    rw [← List.append_assoc, List.append_assoc _ [_], List.singleton_append]
    exact same.symm.append_left _
  | leave workers => simp [Pool.ledger, workers]
  | wait _ _ unset => simp [Pool.ledger, unset]
  | collect gathered results => simp [Pool.ledger, gathered, results]

theorem Step.places (step : Step host options files room pool next) :
    (next.gathered.getD []).length + next.results.length + (Worker.tasks next.workers).length + next.tasks.length
        + next.plans.length
      = (pool.gathered.getD []).length + pool.results.length + (Worker.tasks pool.workers).length + pool.tasks.length
        + pool.plans.length := by
  cases step with
  | settle plans => simp [plans]; omega
  | queue plans => simp [plans]; omega
  | close => rfl
  | take workers tasks => simp [workers, tasks]; omega
  | finish workers => simp [workers]; omega
  | leave workers => simp [workers]
  | wait _ _ unset => simp [unset]
  | collect gathered results => simp [gathered, results]; omega

variable {plans : List Plan}

theorem Sound.step (sound : Sound host options files plans pool) (step : Step host options files room pool next) :
    Sound host options files plans next where
  ledger := (step.ledger sound.crew).trans sound.ledger
  places := step.places.trans sound.places
  crew := by
    have crew := sound.crew
    cases step with
    | take workers | finish workers => simpa [workers] using crew
    | leave workers =>
      simp only [workers, List.length_append, List.length_cons] at crew ⊢
      omega
    | settle | queue | close | wait | collect => exact crew
  served := by
    have served := sound.served
    cases step with
    | settle | wait | collect => exact served
    | close => exact served.imp_right fun ⟨_, noTask⟩ => ⟨rfl, noTask⟩
    | queue plans =>
      refine .inl (served.resolve_right fun ⟨closed, _⟩ => ?_)
      rw [sound.closes closed] at plans
      cases plans
    | take workers tasks =>
      refine .inl ?_
      have full := served.resolve_right fun ⟨_, noTask⟩ => by
        rw [tasks] at noTask
        cases noTask
      simpa [workers] using full
    | finish workers => simpa [workers] using served
    | leave _ tasks closed => exact .inr ⟨closed, tasks⟩
  closes := by
    cases step with
    | settle plans | queue plans =>
      intro closed
      rw [sound.closes closed] at plans
      cases plans
    | close plans => exact fun _ => plans
    | take | finish | leave | wait | collect => exact sound.closes
  waits := by
    cases step with
    | settle | queue => exact sound.waits
    | close => exact fun gathered => ⟨rfl, (sound.waits gathered).2⟩
    | take workers | finish workers | leave workers =>
      intro gathered
      rw [(sound.waits gathered).2] at workers
      simp at workers
    | wait closed none => exact fun _ => ⟨closed, none⟩
    | collect gathered => exact fun _ => sound.waits (by rw [gathered]; rfl)

theorem Reaches.sound {count : Nat} (reached : Reaches host options files room (start options plans) count pool) :
    Sound host options files plans pool := by
  induction reached with
  | refl => exact sound_start plans
  | step _ step ih => exact ih.step step

theorem Sound.progress (sound : Sound host options files plans pool) (enough : plans.length ≤ room) :
    pool.Ended ∨ ∃ next, Step host options files room pool next := by
  -- A queue that has to take something has room for it: the thing itself is not in the queue yet, and all places
  -- together hold as many sources as there are.
  have places := sound.places
  cases gathered : pool.gathered with
  | some kept =>
    cases results : pool.results with
    | nil => exact .inl ⟨by rw [gathered]; rfl, results⟩
    | cons result rest => exact .inr ⟨_, .collect gathered results⟩
  | none =>
    right
    cases plans : pool.plans with
    | cons p rest =>
      rw [plans, List.length_cons] at places
      cases p with
      | settled result => exact ⟨_, .settle plans (by omega)⟩
      | run file hash =>
        have plans : pool.plans = Task.plan ⟨file, hash⟩ :: rest := plans
        exact ⟨_, .queue plans (by omega)⟩
    | nil =>
      cases closed : pool.closed with
      | false => exact ⟨_, .close plans closed⟩
      | true =>
        cases workers : pool.workers with
        | nil => exact ⟨_, .wait closed workers gathered⟩
        | cons worker others =>
          have workers : pool.workers = [] ++ worker :: others := workers
          cases worker with
          | busy task =>
            simp only [workers, List.nil_append, Worker.tasks_busy, List.length_cons] at places
            exact ⟨_, .finish workers (by omega)⟩
          | idle =>
            cases tasks : pool.tasks with
            | nil => exact ⟨_, .leave workers tasks closed⟩
            | cons task rest => exact ⟨_, .take workers tasks⟩

theorem Sound.gathered (sound : Sound host options files plans pool) (ended : pool.Ended) :
    ∃ kept, pool.gathered = some kept ∧ kept.Perm (due host options files plans) := by
  obtain ⟨kept, gathered⟩ := Option.isSome_iff_exists.mp ended.1
  obtain ⟨closed, gone⟩ := sound.waits ended.1
  refine ⟨kept, gathered, ?_⟩
  have ledger := sound.ledger
  -- With a worker, no task is left; without one, tasks are not carried out.
  have undone : due host options files (pool.tasks.map Task.plan) = [] := by
    by_cases works : 0 < options.jobs
    · have served := sound.served.resolve_left (by rw [gone, List.length_nil]; omega)
      rw [served.2]
      rfl
    · rw [due, List.map_eq_nil_iff, List.filter_eq_nil_iff]
      intro p member
      obtain ⟨task, -, rfl⟩ := List.mem_map.mp member
      simpa [Task.plan, Plan.isDone] using works
  simpa [Pool.ledger, gathered, ended.2, gone, sound.closes closed, undone] using ledger

end Pool

def Schedule (host : Host) (options : Options) (files : Files) (sources : List Bytes) : Nat → Pool → Prop :=
  Pool.Reaches host options files sources.length (Pool.start options (plan host options files [] sources))

theorem length_plan (host : Host) (options : Options) (files : Files) (sources : List Bytes) :
    (plan host options files [] sources).length = sources.length := by
  have files := congrArg List.length (plan_files host options files [] sources)
  rwa [List.length_map] at files

theorem weight_start (options : Options) (plans : List Plan) :
    (Pool.start options plans).weight = 4 * plans.length + options.jobs.toNat + 2 := by
  simp [Pool.weight, Pool.start]

section

variable {host : Host} {options : Options} {files : Files} {sources : List Bytes}

variable (host options files sources) in
theorem test_outcome :
    (test host options files sources).results.getD []
        = sorted (Pool.due host options files (plan host options files [] sources)) ∧
      (test host options files sources).exitCode
        = if (Pool.due host options files (plan host options files [] sources)).any isFailure then 1 else 0 := by
  rw [test]
  split
  · next none =>
    rw [List.isEmpty_iff.mp none]
    exact ⟨(List.mergeSort_nil).symm, rfl⟩
  · rw [Pool.due, ← carryOut_results]
    refine ⟨rfl, ?_⟩
    rw [← (List.mergeSort_perm _ TestResult.upTo).any_eq]
    rfl

theorem test_exitCode_iff : (test host options files sources).exitCode = 0 ↔
    ∀ result ∈ Pool.due host options files (plan host options files [] sources),
      Accounted host options files sources result := by
  have accounted {result : TestResult}
      (member : result ∈ Pool.due host options files (plan host options files [] sources)) :
      isFailure result = false ↔ Accounted host options files sources result := by
    obtain ⟨p, inside, rfl⟩ := List.mem_map.mp member
    exact accounted_iff (List.mem_filter.mp inside).1
  have code (fails : Bool) : (if fails = true then (1 : Int) else 0) = 0 ↔ fails = false := by cases fails <;> decide
  rw [(test_outcome host options files sources).2, code, List.any_eq_false]
  refine forall₂_congr fun result member => ?_
  rw [Bool.not_eq_true, accounted member]

theorem files_due (plans : List Plan) : (Pool.due host options files plans).map (·.file)
    = (plans.filter (Plan.isDone options)).map Plan.file := by
  rw [Pool.due, List.map_map]
  exact List.map_congr_left fun p _ => p.result_file host options files

theorem files_due_perm_iff :
    ((Pool.due host options files (plan host options files [] sources)).map (·.file)).Perm sources ↔
    0 < options.jobs ∨ ∀ file hash, .run file hash ∉ plan host options files [] sources := by
  rw [← all_done_iff, files_due]
  constructor
  · intro same
    have lengths := same.length_eq
    rw [List.length_map, ← length_plan host options files sources] at lengths
    exact List.length_filter_eq_length_iff.mp lengths
  · intro done
    rw [List.filter_eq_self.mpr done, plan_files]

end

/-- However the steps of the feeder and the workers interleave, the suite comes to an end, and the report is the same.
It has one result for each source exactly if there is a worker or nothing to run. The suite succeeds exactly if every
result is accounted for. -/
theorem suite_schedules {host : Host} {options : Options} {files : Files} {patterns sources : List Bytes}
    (expanded : expand files [] patterns = .ok sources) :
    (∀ count pool, Schedule host options files sources count pool →
      count ≤ 4 * sources.length + options.jobs.toNat + 2 ∧
        (pool.Ended ∨ ∃ next, Pool.Step host options files sources.length pool next)) ∧
    (∀ count pool, Schedule host options files sources count pool → pool.Ended →
      ∃ gathered, pool.gathered = some gathered ∧
        (test host options files sources).results.getD [] = sorted gathered ∧
        ((gathered.map (·.file)).Perm sources ↔
          0 < options.jobs ∨ ∀ file hash, .run file hash ∉ plan host options files [] sources) ∧
        ((test host options files sources).exitCode = 0 ↔
          ∀ result ∈ gathered, Accounted host options files sources result)) := by
  have planned := length_plan host options files sources
  refine ⟨fun count pool schedule => ⟨?_, ?_⟩, fun count pool schedule ended => ?_⟩
  · have bound := schedule.count_le
    rw [weight_start, planned] at bound
    omega
  · exact schedule.sound.progress planned.le
  · obtain ⟨gathered, kept, same⟩ := schedule.sound.gathered ended
    have distinct : ((Pool.due host options files (plan host options files [] sources)).map (·.file)).Nodup := by
      rw [files_due]
      refine (List.filter_sublist.map Plan.file).nodup ?_
      rw [plan_files]
      exact expand_nodup List.nodup_nil expanded
    refine ⟨gathered, kept, ?_, ?_, ?_⟩
    · rw [(test_outcome host options files sources).1, sorted_eq_of_perm same.symm distinct]
    · rw [← files_due_perm_iff, (same.map (·.file)).congr_left]
    · rw [test_exitCode_iff]
      exact forall_congr' fun result => by rw [same.mem_iff]

def watched : Files where
  entries := [([utf8 "a.cb"], "void f() \x7b\x7d\n"), ([utf8 "b.cb"], "void f() \x7b\x7d\n"),
    ([utf8 ".a.json"], "\x7b\x7d")]
  current := []

theorem expand_watched : expand watched [] ["a.cb", "b.cb"] = .ok ["/a.cb", "/b.cb"] := by rfl

theorem suite_schedules_watched : expand watched [] ["a.cb", "b.cb"] = .ok ["/a.cb", "/b.cb"] ∧
    ∀ count pool, Schedule (plainHost "a") {} watched ["/a.cb", "/b.cb"] count pool → pool.Ended →
      ∃ gathered, pool.gathered = some gathered ∧ (gathered.map (·.file)).Perm [utf8 "/a.cb", utf8 "/b.cb"] := by
  refine ⟨expand_watched, fun count pool schedule ended => ?_⟩
  obtain ⟨gathered, kept, -, complete, -⟩ :=
    (suite_schedules expand_watched).2 count pool schedule ended
  exact ⟨gathered, kept, complete.mpr (Or.inl (by decide))⟩

/-- Without a worker the first source is never tested, and the suite succeeds although the source fails. -/
theorem test_lost_without_worker :
    expand watched [] ["a.cb", "b.cb"] = .ok ["/a.cb", "/b.cb"] ∧
      (test (plainHost "a") { jobs := 1 } watched ["/a.cb", "/b.cb"]).exitCode = 1 ∧
      (test (plainHost "a") { jobs := 0 } watched ["/a.cb", "/b.cb"]).exitCode = 0 ∧
      ∃ count pool, Schedule (plainHost "a") { jobs := 0 } watched ["/a.cb", "/b.cb"] count pool ∧ pool.Ended ∧
        pool.gathered = some [{ file := "/b.cb", status := .skip, message := "Content is identical to /a.cb" }] := by
  refine ⟨expand_watched, (test_outcome ..).2.trans (by decide +kernel),
    (test_outcome ..).2.trans (by decide +kernel), 5, ?_⟩
  have planned : plan (plainHost "a") { jobs := 0 } watched [] ["/a.cb", "/b.cb"]
      = [Task.plan ⟨"/a.cb", "void f() \x7b\x7d\n"⟩,
        .settled { file := "/b.cb", status := .skip, message := "Content is identical to /a.cb" }] := by
    decide +kernel
  rw [Schedule, planned]
  exact ⟨_, .step (.step (.step (.step (.step .refl (.queue rfl (by decide))) (.settle rfl (by decide)))
    (.close rfl rfl)) (.wait rfl rfl rfl)) (.collect rfl rfl), ⟨rfl, rfl⟩, rfl⟩

end Cb.Golden
