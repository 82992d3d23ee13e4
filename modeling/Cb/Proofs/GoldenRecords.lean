import Cb.Golden.Suite
import Cb.Proofs.JsonTexts
import Cb.Proofs.WrittenFiles

/-! A golden file that was just recorded, tested against the same source: what was recorded is read back with every
line repaired, so a line that is not well formed differs from itself. -/

namespace Cb.Golden

/-! Reading a golden file back. -/

def repaired (golden : Golden) : Golden where
  hash := Json.repaired golden.hash
  args := golden.args.map Json.repaired
  exitCode := golden.exitCode
  asm := golden.asm.map Json.repaired
  stderr := golden.stderr.map Json.repaired

def optional (key : String) (texts : List Bytes) : List (Bytes × Json) :=
  if texts.isEmpty then [] else [(utf8 key, .ofTexts texts)]

def members (golden : Golden) : List (Bytes × Json) :=
  (utf8 "hash", .string golden.hash) :: (optional "args" golden.args ++
    ((utf8 "exitCode", .ofInt golden.exitCode) :: (optional "asm" golden.asm ++ optional "stderr" golden.stderr)))

theorem toJson_eq (golden : Golden) : golden.toJson = .object golden.members := by
  rw [toJson, members]
  simp [optional]

theorem reads_texts (level : Nat) (nonempty : texts ≠ []) :
    Json.Reads level (.ofTexts texts) (.ofTexts (texts.map Json.repaired)) := by
  refine Json.reads_array ?_ (by simpa using nonempty)
  rw [List.forall₂_map_left_iff, List.forall₂_map_right_iff, List.forall₂_map_right_iff, List.forall₂_same]
  intro text _
  exact Json.reads_string (level + 1) text

theorem reads_optional (level : Nat) (ascii : Json.repaired (utf8 key) = utf8 key) (texts : List Bytes) :
    List.Forall₂ (Json.ReadsMember level) (optional key texts) (optional key (texts.map Json.repaired)) := by
  cases texts with
  | nil => exact .nil
  | cons text rest => exact .cons ⟨ascii.symm, reads_texts level (List.cons_ne_nil text rest)⟩ .nil

theorem reads_members (golden : Golden) :
    List.Forall₂ (Json.ReadsMember 1) golden.members golden.repaired.members := by
  have hash : utf8 "hash" = Json.repaired (utf8 "hash") := by decide +kernel
  have exitCode : utf8 "exitCode" = Json.repaired (utf8 "exitCode") := by decide +kernel
  refine .cons ⟨hash, Json.reads_string 1 golden.hash⟩ ?_
  refine List.rel_append (reads_optional 1 (by decide +kernel) golden.args) ?_
  refine .cons ⟨exitCode, Json.reads_ofInt 1 golden.exitCode⟩ ?_
  exact List.rel_append (reads_optional 1 (by decide +kernel) golden.asm)
    (reads_optional 1 (by decide +kernel) golden.stderr)

theorem integer?_ofInt (low : -(wordLimit : Int) ≤ n) (high : n < wordLimit) :
    integer? (Bytes.ofInt n) = some n := by
  have digits : (Bytes.ofNat n.natAbs).all isDecimal = true :=
    List.all_eq_true.mpr fun b member => Bytes.isDecimal_of_mem_ofNat member
  rw [Bytes.ofInt]
  split
  · next negative =>
    have value : -(n.natAbs : Int) = n := by omega
    have first : (utf8 "-" ++ Bytes.ofNat n.natAbs).head? = some (byte '-') := rfl
    have rest : (utf8 "-" ++ Bytes.ofNat n.natAbs).drop 1 = Bytes.ofNat n.natAbs := rfl
    simp only [integer?, first, rest, if_true, Bytes.decimalOf_ofNat, value, digits]
    rw [if_neg (by simp; omega)]
  · next positive =>
    have value : (n.natAbs : Int) = n := by omega
    have first : (Bytes.ofNat n.natAbs).head? ≠ some (byte '-') := by
      intro sign
      have digit := Bytes.isDecimal_of_mem_ofNat (List.mem_of_head? sign)
      cases digit
    simp only [integer?, first, if_false, Bytes.decimalOf_ofNat, value, digits]
    rw [if_neg (by simp; omega)]

theorem list?_ofTexts (texts : List Bytes) : list? (.ofTexts texts) = some texts := by
  rw [Json.ofTexts, list?]
  induction texts with
  | nil => rfl
  | cons text rest ih => rw [List.map_cons, List.mapM_cons, ih]; rfl

theorem setMember_hash (golden : Golden) (text : Bytes) :
    golden.setMember (utf8 "hash") (.string text) = some { golden with hash := text } := by
  have name : lower (utf8 "hash") = utf8 "hash" := by decide +kernel
  unfold setMember
  rw [name, if_pos rfl]

theorem setMember_exitCode (golden : Golden) {exitCode : Int} (low : -(wordLimit : Int) ≤ exitCode)
    (high : exitCode < wordLimit) :
    golden.setMember (utf8 "exitCode") (.ofInt exitCode) = some { golden with exitCode } := by
  have name : lower (utf8 "exitCode") = utf8 "exitcode" := by decide +kernel
  unfold setMember
  rw [name, if_neg (by decide), if_pos rfl, Json.ofInt]
  dsimp only
  rw [integer?_ofInt low high, Option.map_some]

theorem setMember_args (golden : Golden) (texts : List Bytes) :
    golden.setMember (utf8 "args") (.ofTexts texts) = some { golden with args := texts } := by
  have name : lower (utf8 "args") = utf8 "args" := by decide +kernel
  unfold setMember
  rw [name, if_neg (by decide), if_neg (by decide), if_pos rfl, list?_ofTexts, Option.map_some]

theorem setMember_asm (golden : Golden) (texts : List Bytes) :
    golden.setMember (utf8 "asm") (.ofTexts texts) = some { golden with asm := texts } := by
  have name : lower (utf8 "asm") = utf8 "asm" := by decide +kernel
  unfold setMember
  rw [name, if_neg (by decide), if_neg (by decide), if_neg (by decide), if_pos rfl, list?_ofTexts,
    Option.map_some]

theorem setMember_stderr (golden : Golden) (texts : List Bytes) :
    golden.setMember (utf8 "stderr") (.ofTexts texts) = some { golden with stderr := texts } := by
  have name : lower (utf8 "stderr") = utf8 "stderr" := by decide +kernel
  unfold setMember
  rw [name, if_neg (by decide), if_neg (by decide), if_neg (by decide), if_neg (by decide), if_pos rfl,
    list?_ofTexts, Option.map_some]

def withMembers (golden : Golden) (members : List (Bytes × Json)) : Option Golden :=
  members.foldlM (fun golden (key, value) => golden.setMember key value) golden

theorem withMembers_cons (golden : Golden) (key : Bytes) (value : Json) (rest : List (Bytes × Json)) :
    golden.withMembers ((key, value) :: rest)
      = (golden.setMember key value).bind fun golden => golden.withMembers rest := rfl

theorem withMembers_append (golden : Golden) (first rest : List (Bytes × Json)) :
    golden.withMembers (first ++ rest) = (golden.withMembers first).bind fun golden => golden.withMembers rest :=
  List.foldlM_append

theorem withMembers_optional {set : Golden → List Bytes → Golden}
    (sets : ∀ golden texts, setMember golden (utf8 key) (.ofTexts texts) = some (set golden texts))
    (unset : set golden [] = golden) (texts : List Bytes) :
    golden.withMembers (optional key texts) = some (set golden texts) := by
  cases texts with
  | nil => exact congrArg some unset.symm
  | cons text rest => exact (congrArg (·.bind some) (sets golden (text :: rest)))

theorem ofJson?_members (golden : Golden) (low : -(wordLimit : Int) ≤ golden.exitCode)
    (high : golden.exitCode < wordLimit) : ofJson? (.object golden.members) = some golden := by
  show withMembers {} golden.members = some golden
  rw [members, withMembers_cons, setMember_hash, Option.bind_some, withMembers_append,
    withMembers_optional setMember_args rfl, Option.bind_some, withMembers_cons, setMember_exitCode _ low high,
    Option.bind_some, withMembers_append, withMembers_optional setMember_asm rfl, Option.bind_some,
    withMembers_optional setMember_stderr rfl]

theorem parse?_text (golden : Golden) (low : -(wordLimit : Int) ≤ golden.exitCode)
    (high : golden.exitCode < wordLimit) : parse? golden.text = some golden.repaired := by
  have reads : Json.Reads 0 golden.toJson (.object golden.repaired.members) := by
    rw [toJson_eq]
    exact Json.reads_object golden.reads_members (List.cons_ne_nil _ _)
  rw [parse?, text, Json.parse?_text reads, Option.bind_some, ofJson?_members golden.repaired low high]

/-! Lines after they were recorded. -/

def drops (ignored : List Bytes) (line : Bytes) : Bool :=
  ignored.any fun part => !part.isEmpty && Bytes.holds part line

/-- A line is compared with itself after it was recorded: it is well formed, or it is left out in both forms. -/
def Stable (ignored : List Bytes) (line : Bytes) : Prop :=
  isUtf8 line = true ∨ (drops ignored line = true ∧ drops ignored (Json.repaired line) = true)

theorem relevant_repaired (ignored lines : List Bytes) :
    relevant ignored (lines.map Json.repaired)
      = (lines.filter fun line => !drops ignored (Json.repaired line)).map Json.repaired :=
  List.filter_map

variable {ignored lines : List Bytes} {line source : Bytes} {host : Host} {options : Options} {files : Files}

theorem isUtf8_of_mem_relevant (same : relevant ignored (lines.map Json.repaired) = relevant ignored lines)
    (member : line ∈ relevant ignored lines) : isUtf8 line = true := by
  rw [← same, relevant_repaired] at member
  obtain ⟨original, -, rfl⟩ := List.mem_map.mp member
  exact (Json.repaired_eq_self_iff _).mp (Json.repaired_repaired original)

/-- Lines that are compared as they are were recorded as they are: they are among those that are compared as recorded,
and there are as many of them. -/
theorem stable_of_relevant_eq (same : relevant ignored (lines.map Json.repaired) = relevant ignored lines)
    (member : line ∈ lines) : Stable ignored line := by
  have wellFormed (line : Bytes) (member : line ∈ lines) (compared : (!drops ignored line) = true) :
      isUtf8 line = true :=
    isUtf8_of_mem_relevant same (List.mem_filter.mpr ⟨member, compared⟩)
  have among : relevant ignored lines
      = (lines.filter fun line => !drops ignored (Json.repaired line)).filter fun line => !drops ignored line := by
    rw [List.filter_filter]
    refine List.filter_congr fun line member => ?_
    show (!drops ignored line) = _
    cases compared : !drops ignored line with
    | false => rfl
    | true => rw [(Json.repaired_eq_self_iff line).mpr (wellFormed line member compared), compared]; rfl
  have many := congrArg List.length same
  rw [relevant_repaired, List.length_map, among] at many
  have all := List.length_filter_eq_length_iff.mp many.symm
  cases dropped : drops ignored line with
  | false => exact .inl (wellFormed line member (by rw [dropped]; rfl))
  | true =>
    refine .inr ⟨dropped, ?_⟩
    by_contra compared
    have compared := all line (List.mem_filter.mpr ⟨member, by simpa using compared⟩)
    rw [dropped] at compared
    cases compared

theorem relevant_eq_of_stable (stable : ∀ line ∈ lines, Stable ignored line) :
    relevant ignored (lines.map Json.repaired) = relevant ignored lines := by
  have kept : (lines.filter fun line => !drops ignored (Json.repaired line)) = relevant ignored lines := by
    refine List.filter_congr fun line member => ?_
    rcases stable line member with wellFormed | ⟨dropped, repairedDropped⟩
    · rw [(Json.repaired_eq_self_iff line).mpr wellFormed]
      rfl
    · rw [repairedDropped]
      exact congrArg not dropped.symm
  rw [relevant_repaired, kept]
  refine (List.map_congr_left fun line member => ?_).trans (List.map_id _)
  obtain ⟨inside, compared⟩ := List.mem_filter.mp member
  rcases stable line inside with wellFormed | ⟨dropped, -⟩
  · exact (Json.repaired_eq_self_iff line).mpr wellFormed
  · change (!drops ignored line) = true at compared
    rw [dropped] at compared
    cases compared

theorem relevant_repaired_eq_iff (ignored lines : List Bytes) :
    relevant ignored (lines.map Json.repaired) = relevant ignored lines ↔ ∀ line ∈ lines, Stable ignored line :=
  ⟨fun same _ member => stable_of_relevant_eq same member, relevant_eq_of_stable⟩

/-! Recording a source, and testing it again. -/

/-- What the compiler does with a source: its exit code, its messages, and the listing if it succeeds. -/
structure Behaviour where
  exitCode : Int
  stderr : Bytes
  asm : Bytes

def Host.started (host : Host) (options : Options) (files : Files) (source hash : Bytes) : Outcome :=
  host.compiler (files.absolute options.compiler)
    { files with
      current := (files.locate (Path.dir source)).toOption.getD files.current
      made := files.made ++ [host.temp] }
    (words options.compilerArgs ++ [utf8 "-o", host.asmFile source hash, Path.base source])

namespace Behaviour

structure Shows (behaviour : Behaviour) (ran : Outcome) (asmFile : Bytes) : Prop where
  exitCode : ran.exitCode = behaviour.exitCode
  stderr : ran.stderr = behaviour.stderr
  asm : behaviour.exitCode = 0 → ran.files.read asmFile = .ok behaviour.asm

def asmLines (behaviour : Behaviour) : List Bytes :=
  if behaviour.exitCode = 0 then outputLines behaviour.asm else []

def stderrLines (behaviour : Behaviour) (host : Host) : List Bytes :=
  outputLines (Bytes.replace host.tempPath "$TMP" behaviour.stderr)

def golden (behaviour : Behaviour) (host : Host) (options : Options) (hash : Bytes) : Golden where
  hash := hash
  args := words options.compilerArgs
  exitCode := behaviour.exitCode
  asm := behaviour.asmLines
  stderr := behaviour.stderrLines host

/-- Two runs give the same, once each of them calls its own temporary directory `$TMP`. -/
structure Alike (behaviour : Behaviour) (host : Host) (again : Behaviour) (later : Host) : Prop where
  exitCode : again.exitCode = behaviour.exitCode
  asm : again.asmLines = behaviour.asmLines
  stderr : again.stderrLines later = behaviour.stderrLines host

end Behaviour

theorem compileSource_of_shows {hash : Bytes} {behaviour : Behaviour}
    (inTime : host.overruns options.timeout source = false) (finished : 0 ≤ behaviour.exitCode)
    (shown : behaviour.Shows (host.started options files source hash) (host.asmFile source hash)) :
    ∃ size, compileSource host options files source hash = .ok ⟨behaviour.golden host options hash, size⟩ := by
  obtain ⟨exitCode, stderr, asm⟩ := shown
  simp only [Host.started] at exitCode stderr asm
  simp only [compileSource, inTime, Bool.false_eq_true, if_false, exitCode, if_neg (Int.not_lt.mpr finished), stderr]
  by_cases succeeds : behaviour.exitCode = 0
  · rw [if_neg (not_not.mpr succeeds), asm succeeds]
    simp [succeeds, Behaviour.golden, Behaviour.asmLines, Behaviour.stderrLines]
  · simp [succeeds, Behaviour.golden, Behaviour.asmLines, Behaviour.stderrLines]

theorem testSource_of_recorded {hash : Bytes} {golden : Golden}
    (recorded : files.read (goldenPath options source) = .ok golden.text) (low : -(wordLimit : Int) ≤ golden.exitCode)
    (high : golden.exitCode < wordLimit) (compiled : compileSource host options files source hash = .ok done) :
    (testSource host options files source hash).1 = judge options source golden.repaired done := by
  simp only [testSource, recorded, parse?_text golden low high, compiled]

theorem mismatches_eq_nil_iff (ignored : List Bytes) (want got : Golden) : mismatches ignored want got = [] ↔
    want.exitCode = got.exitCode ∧ relevant ignored want.asm = relevant ignored got.asm ∧
      relevant ignored want.stderr = relevant ignored got.stderr := by
  have absent {agrees : Prop} [Decidable agrees] (mismatch : Mismatch) :
      (if agrees then [] else [mismatch]) = [] ↔ agrees := by
    split
    · next agreed => exact iff_of_true rfl agreed
    · next differs => exact iff_of_false (List.cons_ne_nil mismatch []) differs
  rw [mismatches, List.append_eq_nil_iff, List.append_eq_nil_iff, absent, absent, absent, and_assoc]

theorem judge_status (options : Options) (source : Bytes) (want : Golden) (done : Compilation) :
    (judge options source want done).status
      = if mismatches options.ignored want done.golden = [] then .pass else .fail := by
  rw [judge]
  simp only [List.isEmpty_iff]
  split
  · rfl
  · rfl

theorem judge_pass_iff (options : Options) (source : Bytes) (want : Golden) (done : Compilation) :
    (judge options source want done).status = .pass ↔
      want.exitCode = done.golden.exitCode ∧
        relevant options.ignored want.asm = relevant options.ignored done.golden.asm ∧
        relevant options.ignored want.stderr = relevant options.ignored done.golden.stderr := by
  rw [judge_status, ← mismatches_eq_nil_iff]
  split
  · next none => exact iff_of_true rfl none
  · next found => exact iff_of_false nofun found

def prepare (options : Options) (files : Files) : Except FileError Files :=
  if options.dir.isEmpty then .ok files else files.makeDirectories options.dir

theorem record_eq (readable : files.read source = .ok content)
    (compiled : compileSource host options files source (host.hash content) = .ok done)
    (ready : prepare options files = .ok prepared)
    (written : prepared.write (goldenPath options source) done.golden.text = .ok after) :
    record host options files source = .ok after := by
  rw [prepare] at ready
  simp only [record, readable, Except.mapError, bind, Except.bind, compiled]
  split at ready
  · next noDir =>
    cases ready
    simp only [noDir, if_true, written]
  · next dir => simp only [dir, Bool.false_eq_true, if_false, ready, written]

/-- A source can be recorded if its golden file can be written. A later invocation, with a temporary directory and names
of its own, passes exactly if it finds what was recorded, up to the lines that are ignored. So if the compiler does the
same again, it passes exactly if every line of the listing and the messages is stable. -/
theorem recorded_passes {host : Host} {options : Options} {files prepared : Files} {source content : Bytes}
    {behaviour : Behaviour} (readable : files.read source = .ok content)
    (inTime : host.overruns options.timeout source = false)
    (finished : 0 ≤ behaviour.exitCode) (fits : behaviour.exitCode < wordLimit)
    (shown : behaviour.Shows (host.started options files source (host.hash content))
      (host.asmFile source (host.hash content)))
    (ready : prepare options files = .ok prepared)
    (writable : ∀ text, ∃ after, prepared.write (goldenPath options source) text = .ok after) :
    ∃ after, record host options files source = .ok after ∧
      ∀ (later : Host) (again : Behaviour), later.overruns options.timeout source = false → 0 ≤ again.exitCode →
        again.Shows (later.started options after source (later.hash content))
          (later.asmFile source (later.hash content)) →
        ((testSource later options after source (later.hash content)).1.status = .pass ↔
          behaviour.exitCode = again.exitCode ∧
          relevant options.ignored (behaviour.asmLines.map Json.repaired) = relevant options.ignored again.asmLines ∧
          relevant options.ignored ((behaviour.stderrLines host).map Json.repaired) =
            relevant options.ignored (again.stderrLines later)) ∧
        (behaviour.Alike host again later →
          ((testSource later options after source (later.hash content)).1.status = .pass ↔
            ∀ line ∈ behaviour.asmLines ++ behaviour.stderrLines host, Stable options.ignored line)) := by
  obtain ⟨size, compiled⟩ := compileSource_of_shows inTime finished shown
  obtain ⟨after, written⟩ := writable (behaviour.golden host options (host.hash content)).text
  refine ⟨after, record_eq readable compiled ready written, fun later again inTimeAgain finishedAgain shownAgain => ?_⟩
  obtain ⟨size, compiledAgain⟩ := compileSource_of_shows inTimeAgain finishedAgain shownAgain
  have low : -(wordLimit : Int) ≤ behaviour.exitCode := by omega
  have passes := judge_pass_iff options source (behaviour.golden host options (host.hash content)).repaired
    ⟨again.golden later options (later.hash content), size⟩
  rw [testSource_of_recorded (Files.read_of_write written) low fits compiledAgain]
  refine ⟨passes, fun alike => passes.trans ?_⟩
  simp only [repaired, Behaviour.golden, alike.exitCode, alike.asm, alike.stderr, relevant_repaired_eq_iff, true_and,
    List.forall_mem_append]

def sampleHost (compiler : Runner) (name : Bytes) : Host where
  compiler := compiler
  hash content := content
  temp := [utf8 "tmp", name]
  id _ := name
  overruns _ _ := false

def sampleFiles (line : Bytes) : Files where
  entries := [([utf8 "a.cb"], line ++ [10])]
  current := []

def complaining : Runner := fun _ files args =>
  { exitCode := 1, stderr := "é: " ++ Path.dir (args.getD 1 []), files }

theorem recorded_passes_renamed :
    ∃ after, record (sampleHost complaining "a") {} (sampleFiles "x") "a.cb" = .ok after ∧
      (testSource (sampleHost complaining "b") {} after "a.cb" "x\n").1.status = .pass := by
  let behaviour (name : Bytes) : Behaviour := { exitCode := 1, stderr := "é: /tmp/" ++ name, asm := [] }
  have shown (name : Bytes) (plain : name = "a" ∨ name = "b") (files : Files) :
      (behaviour name).Shows ((sampleHost complaining name).started {} files "a.cb" "x\n")
        ((sampleHost complaining name).asmFile "a.cb" "x\n") := by
    refine ⟨rfl, ?_, fun succeeds => absurd succeeds Int.one_ne_zero⟩
    rcases plain with rfl | rfl <;> rfl
  obtain ⟨after, recorded, tested⟩ := recorded_passes (by rfl) rfl
    (show 0 ≤ (behaviour "a").exitCode by decide) (by decide) (shown "a" (.inl rfl) (sampleFiles "x")) rfl
    (fun text => ⟨_, rfl⟩)
  refine ⟨after, recorded, ((tested (sampleHost complaining "b") (behaviour "b") rfl (by decide)
    (shown "b" (.inr rfl) after)).2 ⟨rfl, rfl, by decide +kernel⟩).mpr ?_⟩
  have stable : ∀ line ∈ (behaviour "a").asmLines ++ (behaviour "a").stderrLines (sampleHost complaining "a"),
      isUtf8 line = true := by decide +kernel
  exact fun line member => Or.inl (stable line member)

def plainHost : Bytes → Host := sampleHost (installed ⟨fun _ => none, fun _ => []⟩ "/cbc")

/-- A byte that is no character is echoed by the messages and recorded as another one: the source fails although
nothing changed. -/
theorem recorded_fails_malformed :
    let ran (name : Bytes) (files : Files) := (plainHost name).started {} files "a.cb" [255, 10]
    ∃ after, (record (plainHost "a") {} (sampleFiles [255]) "a.cb").toOption = some after ∧
      (ran "b" after).exitCode = (ran "a" (sampleFiles [255])).exitCode ∧
      (ran "b" after).stderr = (ran "a" (sampleFiles [255])).stderr ∧
      (testSource (plainHost "b") {} after "a.cb" [255, 10]).1.status = .fail := by
  refine ⟨_, rfl, ?_⟩
  decide +kernel

end Cb.Golden
