import Cb.Compiler
import Cb.Files.Glob
import Cb.Golden.Basic
import Cb.Golden.Options

/-! Runs of the golden test runner: recording what sources compile to, and testing sources against
their records. -/

namespace Cb.Golden

abbrev Runner := Bytes → Files → List Bytes → Outcome

def notStarted (files : Files) (path : Bytes) (fault : FileFault) : Outcome :=
  { exitCode := -2, stderr := "\nExecution error: fork/exec " ++ path ++ ": " ++ fault.message, files }

def installed (lib : Library) (compilerPath : Bytes) : Runner := fun path files args =>
  if path = compilerPath then Compiler.run lib files args
  else match files.locate path with
    | .ok _ => notStarted files path .denied
    | .error fault => notStarted files path fault

/-- What an invocation finds and draws: the compilers, the hash of contents, a fresh temporary directory, a random name
for the run on each source, and whether that run is still going on when its time is up. -/
structure Host where
  compiler : Runner
  hash : Bytes → Bytes
  temp : Place
  id : Bytes → Bytes
  overruns : Duration → Bytes → Bool

namespace Host

def tempPath (host : Host) : Bytes := Files.pathTo host.temp

def asmFile (host : Host) (source hash : Bytes) : Bytes :=
  host.tempPath ++ [Path.slash] ++ hash ++ "-" ++ host.id source ++ ".asm"

end Host

def outputLines (text : Bytes) : List Bytes :=
  let kept := (text.reverse.dropWhile (· = 10)).reverse
  if kept.isEmpty then [] else Bytes.split 10 kept

structure Compilation where
  golden : Golden
  size : Nat
deriving DecidableEq, Repr

structure RunFailure where
  exitCode : Int
  message : Bytes
deriving DecidableEq, Repr

def compileSource (host : Host) (options : Options) (files : Files) (source hash : Bytes) :
    Except RunFailure Compilation :=
  if host.overruns options.timeout source then
    .error ⟨-1, "compiler timed out after " ++ Duration.text options.timeout⟩
  else
    let asmFile := host.asmFile source hash
    let args := words options.compilerArgs
    let dir := (files.locate (Path.dir source)).toOption.getD files.current
    let inside : Files := { files with current := dir, made := files.made ++ [host.temp] }
    let ran := host.compiler (files.absolute options.compiler) inside (args ++ [utf8 "-o", asmFile, Path.base source])
    let stderr := outputLines (Bytes.replace host.tempPath "$TMP" ran.stderr)
    if ran.exitCode < 0 then .error ⟨ran.exitCode, "could not run compiler: " ++ ran.stderr⟩
    else if ran.exitCode ≠ 0 then .ok ⟨{ hash, args, exitCode := ran.exitCode, stderr }, 0⟩
    else match ran.files.read asmFile with
      | .error error => .error ⟨0, "compiler succeeded but wrote no output: " ++ error.message⟩
      | .ok asm => .ok ⟨{ hash, args, exitCode := 0, asm := outputLines asm, stderr }, asm.length⟩

def goldenPath (options : Options) (source : Bytes) : Bytes :=
  let name : Bytes := "." ++ Bytes.dropBack (Path.extension source) (Path.base source) ++ ".json"
  Path.join (if options.dir.isEmpty then Path.dir source else options.dir) name

inductive Status where
  | pass
  | fail
  | skip
  | error
deriving DecidableEq, Repr

def Status.name : Status → Bytes
  | .pass => "PASS"
  | .fail => "FAIL"
  | .skip => "SKIP"
  | .error => "ERROR"

structure TestResult where
  file : Bytes
  status : Status
  message : Bytes
  mismatches : List Mismatch := []
  exitCode : Int := 0
  asmSize : Nat := 0
deriving DecidableEq, Repr

def judge (options : Options) (file : Bytes) (want : Golden) (done : Compilation) : TestResult :=
  let mismatches := Golden.mismatches options.ignored want done.golden
  let (status, message) : Status × Bytes :=
    if mismatches.isEmpty then (.pass, "Output matches golden file")
    else (.fail, "Output or diagnostics mismatch")
  { file, status, message, mismatches, exitCode := done.golden.exitCode, asmSize := done.size }

def testSource (host : Host) (options : Options) (files : Files) (file hash : Bytes) :
    TestResult × List Bytes :=
  let path := goldenPath options file
  let without (status : Status) (message : Bytes) : TestResult × List Bytes := ({ file, status, message }, [])
  match files.read path with
  | .error error =>
    if error.fault = .missing then without .skip "Cannot test without a corresponding .json golden file"
    else without .error ("Could not read golden file " ++ path ++ ": " ++ error.message)
  | .ok content =>
    match Golden.parse? content with
    | none => without .error ("Could not parse golden file " ++ path ++ ": malformed record")
    | some want =>
      match compileSource host options files file hash with
      | .error failure => ({ file, status := .error, message := failure.message, exitCode := failure.exitCode }, [])
      | .ok done =>
        let changed := !want.hash.isEmpty && want.hash ≠ hash && options.verbose
        let note : Bytes := "[" ++ file ++ "] source changed since the golden file was generated"
        (judge options file want done, if changed then [note] else [])

/-- The regular files that patterns name, as absolute paths and each once; `Except.error` holds a
malformed pattern. -/
def expand (files : Files) (found : List Bytes) : List Bytes → Except Bytes (List Bytes)
  | [] => .ok found
  | pattern :: rest =>
    match files.glob? pattern with
    | none => .error pattern
    | some paths =>
      let fresh (kept : List Bytes) (path : Bytes) : List Bytes :=
        let full := files.absolute path
        let regular := ((files.locate full).toOption.bind files.content?).isSome
        if kept.contains full || !regular then kept else kept ++ [full]
      expand files (paths.foldl fresh found) rest

inductive Plan where
  | settled (result : TestResult)
  | run (file hash : Bytes)
deriving DecidableEq, Repr

/-- Sources that are skipped, or that are the same as an earlier one; `seen` holds hashes and the
sources that had them first. -/
def plan (host : Host) (options : Options) (files : Files) (seen : List (Bytes × Bytes)) : List Bytes → List Plan
  | [] => []
  | file :: rest =>
    let skip := words options.skipFiles
    let settled (status : Status) (message : Bytes) : Plan := .settled { file, status, message }
    if skip.contains file || skip.contains (Path.base file) then
      settled .skip "Explicitly skipped" :: plan host options files seen rest
    else match files.read file with
      | .error error =>
        settled .error ("Failed to read file for hashing: " ++ error.message) :: plan host options files seen rest
      | .ok content =>
        let hash := host.hash content
        match seen.find? (·.1 = hash) with
        | some earlier => settled .skip ("Content is identical to " ++ earlier.2) :: plan host options files seen rest
        | none => .run file hash :: plan host options files (seen ++ [(hash, file)]) rest

def Plan.carryOut (host : Host) (options : Options) (files : Files) : Plan → List (TestResult × List Bytes)
  | .settled result => [(result, [])]
  | .run file hash => if 0 < options.jobs then [testSource host options files file hash] else []

structure SuiteOutcome where
  exitCode : Int
  log : List Bytes := []
  results : Option (List TestResult) := none
  report : Option Bytes := none
  files : Files

def count (status : Status) (results : List TestResult) : Bytes :=
  Bytes.ofNat (results.countP (·.status = status))

def summary (results : List TestResult) : Bytes :=
  "Test Summary: " ++ count .pass results ++ " Passed, " ++ count .fail results ++ " Failed, "
    ++ count .skip results ++ " Skipped, " ++ count .error results ++ " Errored, "
    ++ Bytes.ofNat results.length ++ " Total"

def TestResult.toJson (result : TestResult) : Json :=
  .object [("file", .string result.file), ("status", .string result.status.name),
    ("message", .string result.message), ("diff", .ofTexts (result.mismatches.map Mismatch.title)),
    ("compile", .object [("exitCode", .ofInt result.exitCode)]), ("asm_size", .ofInt result.asmSize)]

def reportText (options : Options) (results : List TestResult) : Bytes :=
  (Json.object [("compiler", .string options.compiler),
    ("results", .object (results.map fun result => (result.file, result.toJson)))]).text

def writeReport (options : Options) (files : Files) (results : List TestResult) :
    Files × Option Bytes × List Bytes :=
  let (files, log) : Files × List Bytes :=
    if options.dir.isEmpty then (files, [])
    else match files.makeDirectories options.dir with
      | .ok made => (made, [])
      | .error error => (files, ["[ERROR] Failed to create dir " ++ options.dir ++ ": " ++ error.message])
  let path := if options.dir.isEmpty then options.output else Path.join options.dir options.output
  match files.write path (reportText options results) with
  | .ok written => (written, some path, log)
  | .error error =>
    (files, none, log ++ ["[ERROR] Failed to write JSON report to " ++ path ++ ": " ++ error.message])

def isFailure (result : TestResult) : Bool := result.status = .fail || result.status = .error

def test (host : Host) (options : Options) (files : Files) (sources : List Bytes) : SuiteOutcome :=
  if sources.isEmpty then
    { exitCode := 0, log := ["No test files found matching the pattern(s)."], files }
  else
    let done := (plan host options files [] sources).flatMap (Plan.carryOut host options files)
    let results := (done.map (·.1)).mergeSort fun a b => !Bytes.lessThan b.file a.file
    let (files, report, log) := writeReport options files results
    { exitCode := if results.any isFailure then 1 else 0
      log := done.flatMap (·.2) ++ log, results := some results, report, files }

def record (host : Host) (options : Options) (files : Files) (source : Bytes) : Except Bytes Files := do
  let content ← (files.read source).mapError fun error =>
    "Could not hash source file " ++ source ++ ": " ++ error.message
  let done ← (compileSource host options files source (host.hash content)).mapError fun failure =>
    "Could not compile " ++ source ++ ": " ++ failure.message
  let files ← if options.dir.isEmpty then .ok files
    else (files.makeDirectories options.dir).mapError fun error =>
      "Failed to create directory " ++ options.dir ++ ": " ++ error.message
  let path := goldenPath options source
  (files.write path done.golden.text).mapError fun error =>
    "Failed to write golden file " ++ path ++ ": " ++ error.message

def generate (host : Host) (options : Options) (files : Files) (log : List Bytes) :
    List Bytes → SuiteOutcome
  | [] => { exitCode := 0, log, files }
  | source :: rest =>
    match record host options files source with
    | .error message => { exitCode := 1, log := log ++ ["[ERROR] " ++ message], files }
    | .ok written =>
      generate host options written
        (log ++ ["[SUCCESS] Golden file created at " ++ goldenPath options source]) rest

def runWith (host : Host) (options : Options) (files : Files) : SuiteOutcome :=
  let generating := !options.generate.isEmpty
  match expand files [] (words (if generating then options.generate else options.testFiles)) with
  | .error pattern =>
    { exitCode := 1, files
      log := ["[ERROR] Invalid glob pattern(s): bad pattern " ++ pattern ++ ": syntax error in pattern"] }
  | .ok sources =>
    if generating then generate host options files [] sources else test host options files sources

def run (host : Host) (files : Files) (args : List Bytes) : SuiteOutcome :=
  match Options.parse args with
  | .error error =>
    { exitCode := if error = .help then 0 else 2, log := [error.message ++ usagePage], files }
  | .ok options => runWith host options files

end Cb.Golden
