import Cb.CommandLine.Flag
import Cb.Duration

/-! The command line of the golden test runner. A flag follows one or two dashes, and reading stops
at the first argument that is none. -/

namespace Cb.Golden

structure Options where
  compiler : Bytes := "./cbc"
  compilerArgs : Bytes := []
  /-- Patterns of the sources to record; empty when sources are to be tested. -/
  generate : Bytes := []
  testFiles : Bytes := "tests/*.cb"
  skipFiles : Bytes := []
  output : Bytes := ".test_results.json"
  timeout : Duration := 5 * Duration.second
  jobs : Int := 4
  verbose : Bool := false
  /-- Where golden files are kept; empty for the directory of each source. -/
  dir : Bytes := []
  /-- Texts separated by commas; lines that hold one of them are not compared. -/
  ignoreLines : Bytes := []
deriving DecidableEq, Repr

inductive OptionError where
  | help
  | badForm (arg : Bytes)
  | unknown (name : Bytes)
  | needsArgument (name : Bytes)
  | badValue (name value reason : Bytes)
  | badSwitch (name value : Bytes)
deriving DecidableEq, Repr

def OptionError.message : OptionError → Bytes
  | .help => []
  | .badForm arg => "bad flag syntax: " ++ arg ++ "\n"
  | .unknown name => "flag provided but not defined: -" ++ name ++ "\n"
  | .needsArgument name => "flag needs an argument: -" ++ name ++ "\n"
  | .badValue name value reason =>
    "invalid value " ++ quoted value ++ " for flag -" ++ name ++ ": " ++ reason ++ "\n"
  | .badSwitch name value => "invalid boolean value " ++ quoted value ++ " for -" ++ name ++ ": parse error\n"

inductive OptionKind where
  | text (set : Bytes → Options → Options)
  | number (set : Int → Options → Options)
  | duration (set : Duration → Options → Options)
  | switch (set : Bool → Options → Options)

def OptionKind.word : OptionKind → Bytes
  | .text _ => " string"
  | .number _ => " int"
  | .duration _ => " duration"
  | .switch _ => []

structure OptionSpec where
  name : Bytes
  kind : OptionKind
  usage : Bytes
  default : Bytes := []

namespace OptionSpec

def all : List OptionSpec :=
  [{ name := "args", kind := .text fun value o => { o with compilerArgs := value }
     usage := "Extra arguments for the compiler (space-separated)." },
   { name := "compiler", kind := .text fun value o => { o with compiler := value }
     usage := "Path to the compiler to test.", default := quoted ({} : Options).compiler },
   { name := "dir", kind := .text fun value o => { o with dir := value }
     usage := "Directory to store/read golden JSON files (defaults to source file dir)." },
   { name := "generate-golden", kind := .text fun value o => { o with generate := value }
     usage := "Generate golden .json files for the given source files (space-separated globs)." },
   { name := "ignore-lines", kind := .text fun value o => { o with ignoreLines := value }
     usage := "Comma-separated substrings to ignore during output comparison." },
   { name := "j", kind := .number fun value o => { o with jobs := value }
     usage := "Number of parallel test jobs.", default := Bytes.ofInt ({} : Options).jobs },
   { name := "output", kind := .text fun value o => { o with output := value }
     usage := "Output file for the JSON test report.", default := quoted ({} : Options).output },
   { name := "skip-files", kind := .text fun value o => { o with skipFiles := value }
     usage := "Files to skip (space-separated)." },
   { name := "test-files", kind := .text fun value o => { o with testFiles := value }
     usage := "Glob pattern(s) for files to test (space-separated).", default := quoted ({} : Options).testFiles },
   { name := "timeout", kind := .duration fun value o => { o with timeout := value }
     usage := "Timeout for each compiler run.", default := Duration.text ({} : Options).timeout },
   { name := "v", kind := .switch fun value o => { o with verbose := value }, usage := "Enable verbose logging." }]

def find? (name : Bytes) : Option OptionSpec := all.find? (·.name = name)

def describe (spec : OptionSpec) : Bytes :=
  let head : Bytes := "  -" ++ spec.name ++ spec.kind.word
  let gap : Bytes := if head.length ≤ 4 then "\t" else "\n    \t"
  let note : Bytes := if spec.default.isEmpty then [] else " (default " ++ spec.default ++ ")"
  head ++ gap ++ spec.usage ++ note ++ "\n"

end OptionSpec

def usagePage : Bytes := "Usage of cbtest:\n" ++ OptionSpec.all.flatMap OptionSpec.describe

def magnitude? (text : Bytes) : Option Nat := do
  let (base, digits) := match text with
    | 48 :: mark :: rest =>
      if mark = byte 'x' || mark = byte 'X' then (16, rest)
      else if mark = byte 'o' || mark = byte 'O' then (8, rest)
      else if mark = byte 'b' || mark = byte 'B' then (2, rest)
      else (8, mark :: rest)
    | _ => (10, text)
  let values ← digits.mapM hexDigit?
  if values.isEmpty || values.any (base ≤ ·) then none
  return numberOf base values

def parseNumber (text : Bytes) : Except Bytes Int :=
  let (negative, rest) := match text with
    | 45 :: rest => (true, rest)
    | 43 :: rest => (false, rest)
    | rest => (false, rest)
  match magnitude? rest with
  | none => .error "parse error"
  | some size =>
    if wordLimit ≤ size && !(negative && size = wordLimit) then .error "value out of range"
    else .ok (if negative then -(size : Int) else size)

namespace Options

def assign (options : Options) (spec : OptionSpec) (value : Bytes) : Except OptionError Options :=
  match spec.kind with
  | .text set => .ok (set value options)
  | .number set =>
    match parseNumber value with
    | .ok number => .ok (set number options)
    | .error reason => .error (.badValue spec.name value reason)
  | .duration set =>
    match Duration.parse? value with
    | some span => .ok (set span options)
    | none => .error (.badValue spec.name value "parse error")
  | .switch set =>
    match boolean? value with
    | some on => .ok (set on options)
    | none => .error (.badSwitch spec.name value)

def cutFlag (body : Bytes) : Bytes × Option Bytes :=
  match body with
  | first :: rest =>
    match Bytes.cut? (byte '=') rest with
    | some (name, value) => (first :: name, some value)
    | none => (body, none)
  | [] => ([], none)

inductive Reading where
  | stop
  | take (spec : OptionSpec) (value : Bytes)
  | takeNext (spec : OptionSpec)
  | fault (error : OptionError)

def readBody (body : Bytes) : Reading :=
  let (name, value) := cutFlag body
  match OptionSpec.find? name with
  | none => .fault (if name = "h" || name = "help" then .help else .unknown name)
  | some spec =>
    match value, spec.kind with
    | some value, _ => .take spec value
    | none, .switch _ => .take spec "true"
    | none, _ => .takeNext spec

def read (arg : Bytes) : Reading :=
  match arg with
  | 45 :: second :: rest =>
    let body := if second = 45 then rest else second :: rest
    match body with
    | [] => .stop
    | first :: _ => if first = 45 || first = byte '=' then .fault (.badForm arg) else readBody body
  | _ => .stop

def parseFrom (options : Options) : List Bytes → Except OptionError Options
  | [] => .ok options
  | arg :: rest =>
    match read arg with
    | .stop => .ok options
    | .fault error => .error error
    | .take spec value =>
      match options.assign spec value with
      | .ok changed => changed.parseFrom rest
      | .error error => .error error
    | .takeNext spec =>
      match rest with
      | [] => .error (.needsArgument spec.name)
      | value :: later =>
        match options.assign spec value with
        | .ok changed => changed.parseFrom later
        | .error error => .error error

def parse (args : List Bytes) : Except OptionError Options := ({} : Options).parseFrom args

def ignored (options : Options) : List Bytes :=
  if options.ignoreLines.isEmpty then [] else Bytes.split (byte ',') options.ignoreLines

end Options

end Cb.Golden
