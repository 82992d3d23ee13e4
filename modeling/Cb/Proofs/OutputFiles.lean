import Cb.Compiler
import Cb.Proofs.ProjectOrder
import Cb.Proofs.WrittenFiles

/-! The files that a run of the compiler changes: none when it fails, shows help or lists functions, and else the
output file alone. -/

namespace Cb

theorem Preprocess.Reaches.readable (reached : Preprocess.Reaches files path p chain target q)
    (expanded : (p.expand files path).1 = .ok lines) : ∃ content, files.read target = .ok content := by
  cases found : files.read target with
  | ok content => exact ⟨content, rfl⟩
  | error error =>
    obtain ⟨d, failed⟩ : ∃ d, (q.expand files target).1 = .error d := by
      rw [Preprocess.expand_eq, Preprocess.expandOnce, found]
      dsimp only
      split
      · exact ⟨_, rfl⟩
      · exact ⟨_, rfl⟩
    rw [reached.error failed] at expanded
    cases expanded

namespace Compiler

def flagsOf (args : List Bytes) : FlagSet := (command.start args).1.flags

def AsksHelp (args : List Bytes) : Prop := (command.start args).2 = .ok .help

def AsksList (args : List Bytes) : Prop := (flagsOf args).isOn "dump-ast" = true

def projectOutput (lib : Library) (files : Files) (named : Bytes) : Bytes :=
  match Project.load lib.project? files (if named.isEmpty then Project.defaultPath else named) with
  | .ok project => project.output
  | .error _ => []

/-- Where the output goes: the option comes first, then the project, and then the input, whose extension is
replaced. -/
inductive Chooses (option project input : Bytes) : Bytes → Prop
  | option : option ≠ [] → Chooses option project input option
  | project : option = [] → project ≠ [] → Chooses option project input project
  | input {stem ending : Bytes} : option = [] → project = [] → Path.Extends input stem ending →
      Chooses option project input (stem ++ ".asm")

variable {lib : Library} {settings : Settings} {files : Files} {input : Bytes} {set : FlagSet}

theorem applyProject_output (applied : ({} : Settings).applyProject project = (settings, none)) :
    settings.output = project.output := by
  rw [Settings.applyProject_eq] at applied
  split at applied
  · cases applied
  · cases applied
  · cases applied
    dsimp only
    split
    · next none => rw [List.isEmpty_iff.mp none]
    · rfl

theorem projectSettings_output (projected : projectSettings lib files named = .ok settings) :
    settings.output = projectOutput lib files named := by
  rw [projectSettings] at projected
  rw [projectOutput]
  dsimp only at projected
  split at projected
  · next project loaded =>
    rw [loaded]
    split at projected
    · next applied =>
      cases projected
      exact applyProject_output applied
    · cases projected
  · next error loaded =>
    rw [loaded]
    split at projected
    · cases projected
      rfl
    · cases projected
  · cases projected

theorem foldl_define_output (settings : Settings) (definitions : List Bytes) :
    (definitions.foldl Settings.define settings).output = settings.output := by
  induction definitions generalizing settings with
  | nil => rfl
  | cons definition rest ih => exact ih (settings.define definition)

theorem settingsFor_output (configured : settingsFor lib files set = .ok settings) :
    settings.output = projectOutput lib files (textOf set "config") := by
  rw [settingsFor] at configured
  cases projected : projectSettings lib files (textOf set "config") with
  | error error =>
    rw [projected] at configured
    cases configured
  | ok basic =>
    rw [projected] at configured
    cases configured
    rw [foldl_define_output]
    change basic.output = _
    exact projectSettings_output projected

theorem chooses_outputPath (configured : settingsFor lib files set = .ok settings) (input : Bytes) :
    Chooses (textOf set "output") (projectOutput lib files (textOf set "config")) input
      (outputPath set settings input) := by
  rw [outputPath, ← settingsFor_output configured]
  split
  · next given => exact .option (by simpa using given)
  next noOption =>
  have noOption : textOf set "output" = [] := by simpa using noOption
  split
  · next given => exact .project noOption (by simpa using given)
  · next noProject => exact .input noOption (by simpa using noProject) (Path.extends_extension input)

/-! What a run can do. -/

theorem register_helpFlag : (command.flags.register Command.helpFlag).2 = none := by decide +kernel

theorem start_cases (args : List Bytes) :
    (∃ error, (command.start args).2 = .ok (.refused error)) ∨ AsksHelp args ∨
      (command.start args).2 = .ok (.proceed (flagsOf args).args) := by
  have registered := register_helpFlag
  rw [AsksHelp, flagsOf, Command.start]
  split
  · next clashes =>
    rw [clashes] at registered
    cases registered
  split
  · exact .inl ⟨_, rfl⟩
  · split
    · exact .inr (.inl rfl)
    · exact .inr (.inr rfl)

inductive Ends (lib : Library) (files : Files) (set : FlagSet) (ran : Outcome) : Prop
  | failed : ran.exitCode = 1 → ran.files = files → Ends lib files set ran
  | listed {input : Bytes} {settings : Settings} {program : Program} :
      set.isOn "dump-ast" = true → set.args = [input] → settingsFor lib files set = .ok settings →
      (load files settings input).program = .ok program →
      ran.exitCode = 0 → ran.files = files → Ends lib files set ran
  | wrote {input : Bytes} {settings : Settings} {program : Program} :
      ¬set.isOn "dump-ast" = true → set.args = [input] → settingsFor lib files set = .ok settings →
      (load files settings input).program = .ok program →
      (program.generate (load files settings input).settings).problem = none →
      ran.exitCode = 0 →
      files.write (outputPath set settings input)
        (Bytes.unlines ((program.generate (load files settings input).settings).lines.map Line.text)) =
          .ok ran.files →
      Ends lib files set ran

theorem dump_ends (list : set.isOn "dump-ast" = true) (one : set.args = [input])
    (configured : settingsFor lib files set = .ok settings) : Ends lib files set (dump files settings input) := by
  rw [dump]
  split
  · exact .failed rfl rfl
  · next loaded => exact .listed list one configured loaded rfl rfl

theorem build_ends (noList : ¬set.isOn "dump-ast" = true) (one : set.args = [input])
    (configured : settingsFor lib files set = .ok settings) :
    Ends lib files set (build lib files settings input (outputPath set settings input)) := by
  rw [build, compile]
  dsimp only
  cases loaded : (load files settings input).program with
  | error error => exact .failed rfl rfl
  | ok program =>
    dsimp only
    cases complete : (program.generate (load files settings input).settings).problem with
    | some problem => exact .failed rfl rfl
    | none =>
      dsimp only
      split
      · exact .failed rfl rfl
      · next written => exact .wrote noList one configured loaded complete rfl written

theorem act_ends (lib : Library) (files : Files) (command : Command) :
    Ends lib files command.flags (act lib files command command.flags.args) := by
  rw [act.eq_def]
  split
  · next input one =>
    split
    · exact .failed rfl rfl
    next settings configured =>
    split
    · next list => exact dump_ends list one configured
    · next noList => exact build_ends noList one configured
  · exact .failed rfl rfl

theorem run_cases (lib : Library) (files : Files) (args : List Bytes) :
    (AsksHelp args ∧ (run lib files args).exitCode = 0 ∧ (run lib files args).files = files) ∨
      ¬AsksHelp args ∧ Ends lib files (flagsOf args) (run lib files args) := by
  have begins := start_cases args
  simp only [AsksHelp, flagsOf] at begins ⊢
  rw [run]
  generalize command.start args = started at begins ⊢
  obtain ⟨command, start⟩ := started
  dsimp only at begins
  rcases begins with ⟨error, rfl⟩ | rfl | rfl
  · exact .inr ⟨nofun, .failed rfl rfl⟩
  · exact .inl ⟨rfl, rfl, rfl⟩
  · refine .inr ⟨nofun, ?_⟩
    cases act_ends lib files command with
    | failed fails same => exact .failed fails same
    | listed list one configured loaded succeeds same => exact .listed list one configured loaded succeeds same
    | wrote noList one configured loaded complete succeeds written =>
      exact .wrote noList one configured loaded complete succeeds written

/-- A run that fails, shows help or lists functions leaves every file as it was. Any other run writes the listing of
the whole program to the chosen output, and changes nothing else. -/
theorem run_changes_output (lib : Library) (files : Files) (args : List Bytes) :
    ((run lib files args).exitCode = 0 ∨ (run lib files args).exitCode = 1) ∧
    ((run lib files args).exitCode = 1 ∨ AsksHelp args ∨ AsksList args → (run lib files args).files = files) ∧
    ((run lib files args).exitCode = 0 → ¬AsksHelp args → ¬AsksList args →
      ∃ input settings program output place, (flagsOf args).args = [input] ∧
        settingsFor lib files (flagsOf args) = .ok settings ∧
        (load files settings input).program = .ok program ∧
        (program.generate (load files settings input).settings).problem = none ∧
        Chooses (textOf (flagsOf args) "output") (projectOutput lib files (textOf (flagsOf args) "config")) input
          output ∧
        files.Writes (run lib files args).files output
          (Bytes.unlines ((program.generate (load files settings input).settings).lines.map Line.text)) place) := by
  rcases run_cases lib files args with ⟨help, succeeds, same⟩ | ⟨noHelp, ends⟩
  · exact ⟨.inl succeeds, fun _ => same, fun _ noHelp => absurd help noHelp⟩
  · cases ends with
    | failed fails same =>
      refine ⟨.inr fails, fun _ => same, fun succeeds => ?_⟩
      rw [fails] at succeeds
      cases succeeds
    | listed list one configured loaded succeeds same =>
      exact ⟨.inl succeeds, fun _ => same, fun _ _ noList => absurd list noList⟩
    | @wrote input settings program noList one configured loaded complete succeeds written =>
      refine ⟨.inl succeeds, ?_, fun _ _ _ => ?_⟩
      · rintro (fails | help | list)
        · rw [succeeds] at fails
          cases fails
        · exact absurd help noHelp
        · exact absurd list noList
      · obtain ⟨place, writes⟩ := Files.writes_of_write written
        exact ⟨input, settings, program, _, place, one, configured, loaded, complete,
          chooses_outputPath configured input, writes⟩

/-! The default output. -/

theorem expanded_of_load (loaded : (load files settings input).program = .ok program) :
    ∃ lines, ((Preprocessor.ofSettings settings).expand files input).1 = .ok lines := by
  rw [load] at loaded
  split at loaded
  · cases loaded
  · next lines p expanded => exact ⟨lines, congrArg Prod.fst expanded⟩

def defaultOutput (input : Bytes) : Bytes := Path.withoutExtension input ++ ".asm"

theorem outputPath_default (configured : settingsFor lib files set = .ok settings) (noOption : textOf set "output" = [])
    (noProject : projectOutput lib files (textOf set "config") = []) :
    outputPath set settings input = defaultOutput input := by
  have unset : settings.output = [] := (settingsFor_output configured).trans noProject
  simp [outputPath, noOption, unset, defaultOutput]

theorem defaultOutput_of_asm (asm : Path.extension input = utf8 ".asm") : defaultOutput input = input := by
  rw [defaultOutput, ← asm]
  exact (Path.extends_extension input).whole.symm

/-- A successful run on one input that is given no output path, neither by an option nor by the project. -/
structure RunsByDefault (lib : Library) (files : Files) (args : List Bytes) (input : Bytes) (settings : Settings) :
    Prop where
  succeeds : (run lib files args).exitCode = 0
  noHelp : ¬AsksHelp args
  one : (flagsOf args).args = [input]
  configured : settingsFor lib files (flagsOf args) = .ok settings
  noOption : textOf (flagsOf args) "output" = []
  noProject : projectOutput lib files (textOf (flagsOf args) "config") = []

namespace RunsByDefault

variable {lib : Library} {files : Files} {args : List Bytes} {input : Bytes} {settings : Settings}

theorem result (ran : RunsByDefault lib files args input settings) :
    (∃ program, (load files settings input).program = .ok program) ∧
      ((run lib files args).files = files ∨ ∃ place content, (run lib files args).files = files.put place content ∧
        (run lib files args).files.locate (defaultOutput input) = .ok place) := by
  rcases run_cases lib files args with ⟨help, -⟩ | ⟨-, ends⟩
  · exact absurd help ran.noHelp
  · have succeeds := ran.succeeds
    cases ends with
    | failed fails =>
      rw [fails] at succeeds
      cases succeeds
    | @listed other chosen program _ one configured loaded _ same =>
      obtain ⟨rfl⟩ : input = other := by simpa [ran.one] using one
      obtain ⟨rfl⟩ : settings = chosen := Except.ok.inj (ran.configured.symm.trans configured)
      exact ⟨⟨program, loaded⟩, .inl same⟩
    | @wrote other chosen program _ one configured loaded _ _ written =>
      obtain ⟨rfl⟩ : input = other := by simpa [ran.one] using one
      obtain ⟨rfl⟩ : settings = chosen := Except.ok.inj (ran.configured.symm.trans configured)
      obtain ⟨place, put, located, -⟩ := Files.write_ok written
      rw [outputPath_default configured ran.noOption ran.noProject] at located
      exact ⟨⟨program, loaded⟩, .inr ⟨place, _, put, located⟩⟩

theorem readable (ran : RunsByDefault lib files args input settings)
    (reached : Preprocess.Reaches files input (Preprocessor.ofSettings settings) chain target q) :
    ∃ content, files.read target = .ok content := by
  obtain ⟨⟨program, loaded⟩, -⟩ := ran.result
  obtain ⟨lines, expanded⟩ := expanded_of_load loaded
  exact reached.readable expanded

end RunsByDefault

/-- Without an output path, a run leaves the input and the files that it includes as they were, but for the one at
the default path. That one is the input exactly if its extension is that of listings already, and it is never a file
of another extension. -/
theorem default_output_spares {lib : Library} {files : Files} {args : List Bytes} {input : Bytes} {settings : Settings}
    (ran : RunsByDefault lib files args input settings) :
    (∀ chain target q, Preprocess.Reaches files input (Preprocessor.ofSettings settings) chain target q →
      ∃ content, files.read target = .ok content ∧ ((run lib files args).files.read target = .ok content ∨
        files.locate target = (run lib files args).files.locate (defaultOutput input))) ∧
    (Path.extension input = utf8 ".asm" → defaultOutput input = input) ∧
    (Path.extension input ≠ utf8 ".asm" → (run lib files args).files.read input = files.read input) ∧
    (∀ place content, files.content? place = some content → (∀ name ∈ place.getLast?, ¬utf8 ".asm" <:+ name) →
      (run lib files args).files.content? place = some content) := by
  have plain : Path.slash ∉ utf8 ".asm" := by decide
  have long : 2 < (utf8 ".asm").length := by decide
  rcases ran.result.2 with same | ⟨place, written, put, located⟩
  -- The functions were listed, and nothing was written.
  · rw [same]
    refine ⟨fun chain target q reached => ?_, defaultOutput_of_asm, fun _ => rfl, fun _ _ there _ => there⟩
    obtain ⟨content, readable⟩ := ran.readable reached
    exact ⟨content, readable, .inl readable⟩
  · refine ⟨?_, defaultOutput_of_asm, ?_, ?_⟩
    · intro chain target q reached
      obtain ⟨content, readable⟩ := ran.readable reached
      refine ⟨content, readable, ?_⟩
      rw [located, or_iff_not_imp_right, put]
      exact Files.read_put readable
    · intro other
      obtain ⟨content, readable⟩ := ran.readable .here
      rw [readable, put]
      refine Files.read_put readable fun here => ?_
      have same : (run lib files args).files.current = files.current := by rw [put]; rfl
      exact Files.locate_ne_of_extension same plain long other here located rfl
    -- The place that was written ends in the new extension.
    · intro other content there unlike
      obtain ⟨dir, stem, rfl⟩ := Files.locate_extended plain long located
      rw [put, Files.content?_put, if_neg, there]
      rintro rfl
      exact unlike _ (by simp) (List.suffix_append stem _)

theorem exists_runsByDefault (succeeds : (run lib files args).exitCode = 0)
    (noHelp : (command.start args).2 ≠ .ok .help) (one : (flagsOf args).args = [input]) (works : (settingsFor lib files (flagsOf args)).toOption.isSome = true)
    (noOption : textOf (flagsOf args) "output" = [])
    (noProject : projectOutput lib files (textOf (flagsOf args) "config") = []) :
    ∃ settings, RunsByDefault lib files args input settings := by
  cases configured : settingsFor lib files (flagsOf args) with
  | error error =>
    rw [configured] at works
    cases works
  | ok settings => exact ⟨settings, succeeds, noHelp, one, configured, noOption, noProject⟩

def bare : Library := ⟨fun _ => none, fun _ => []⟩

def including : Files where
  entries := [([utf8 "m.cb"], "#include \"lib/m.asm\"\nvoid main() \x7b f(); \x7d"),
    ([utf8 "lib", utf8 "m.asm"], "void f() \x7b\x7d")]
  current := []

theorem default_output_spares_including : ∃ settings, RunsByDefault bare including ["m.cb"] "m.cb" settings ∧
    (run bare including ["m.cb"]).files.read "m.cb" = including.read "m.cb" := by
  obtain ⟨settings, ran⟩ : ∃ settings, RunsByDefault bare including ["m.cb"] "m.cb" settings :=
    exists_runsByDefault (by decide +kernel) (by decide +kernel) (by decide +kernel) (by decide +kernel)
      (by decide +kernel) (by decide +kernel)
  exact ⟨settings, ran, (default_output_spares ran).2.2.1 (by decide)⟩

def listingNamed : Files where
  entries := [([utf8 "a.asm"], "void main() \x7b\x7d")]
  current := []

/-- A source with the extension of listings is overwritten by its listing. -/
theorem source_overwritten_listingNamed : ∃ settings, RunsByDefault bare listingNamed ["a.asm"] "a.asm" settings ∧
    (run bare listingNamed ["a.asm"]).files.read "a.asm" ≠ listingNamed.read "a.asm" := by
  obtain ⟨settings, ran⟩ : ∃ settings, RunsByDefault bare listingNamed ["a.asm"] "a.asm" settings :=
    exists_runsByDefault (by decide +kernel) (by decide +kernel) (by decide +kernel) (by decide +kernel)
      (by decide +kernel) (by decide +kernel)
  exact ⟨settings, ran, by decide +kernel⟩

end Compiler

end Cb
