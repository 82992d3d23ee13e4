import Cb.CommandLine.Help
import Cb.Compile
import Cb.Preprocess.Includes
import Cb.Settings.Groups
import Cb.Settings.Project

/-! The compiler as a command: from arguments and files to exit code, texts and files. -/

namespace Cb

structure Outcome where
  exitCode : Int
  stdout : Bytes := []
  stderr : Bytes := []
  waits : Bool := false
  files : Files

/-- What is taken from elsewhere: the reader of project files, and how a number of bytes is written for people. -/
structure Library where
  project? : Bytes → Option Project
  sizeText : Nat → Bytes

namespace Compiler

def options : List Flag :=
  [{ name := "output", short := "o", expects := "file", initial := .text []
     usage := "Place the output into <file>. Defaults to the input with an .asm extension." },
   { name := "config", short := "c", expects := "file", initial := .text []
     usage := "Load project settings from <file> (default: " ++ Project.defaultPath ++ " if present)." },
   { name := "include", short := "I", expects := "dir", initial := .list []
     usage := "Add a directory to the library search path of #include <...>." },
   { name := "define", short := "D", expects := "name[=value]", initial := .list []
     usage := "Predefine a macro, optionally with a value." },
   { name := "wait", short := "w", initial := .switch false, usage := "Wait for Enter before exiting." },
   { name := "dump-ast", initial := .switch false, usage := "Dump the parsed functions and exit." }]

def command : Command where
  name := "cbc"
  synopsis := "[options] <input.cb>"
  description := "A single-pass compiler for the Cb language. Emits MASM/TASM assembly for 16-bit real-mode DOS programs."
  authors := ["xplshn"]
  repository := "<https://github.com/xplshn/cbc>"
  flags := ({} : Settings).flagSet options

def textOf (set : FlagSet) (name : Bytes) : Bytes :=
  match set.value? name with
  | some (.text value) => value
  | _ => []

def listOf (set : FlagSet) (name : Bytes) : List Bytes :=
  match set.value? name with
  | some (.list items) => items
  | _ => []

def projectSettings (lib : Library) (files : Files) (named : Bytes) : Except ProjectError Settings :=
  let apply (project : Project) : Except ProjectError Settings :=
    match ({} : Settings).applyProject project with
    | (settings, none) => .ok settings
    | (_, some error) => .error error
  match Project.load lib.project? files (if named.isEmpty then Project.defaultPath else named) with
  | .ok project => apply project
  | .error (.unreadable error) =>
    if named.isEmpty && error.fault = .missing then .ok {} else .error (.unreadable error)
  | .error error => .error error

def projectProblem : ProjectError → Problem
  | .unknownWarning name => .plain (ProjectError.unknownWarning name).message
  | .unknownFeature name => .plain (ProjectError.unknownFeature name).message
  | error => .within "could not load project file" (.plain error.message)

/-- The project file comes first, so that the command line wins over it. -/
def settingsFor (lib : Library) (files : Files) (set : FlagSet) : Except ProjectError Settings := do
  let settings ← projectSettings lib files (textOf set "config")
  let settings := settings.applySwitches set
  let settings := { settings with includeDirs := settings.includeDirs ++ listOf set "include" }
  return (listOf set "define").foldl Settings.define settings

def outputPath (set : FlagSet) (settings : Settings) (input : Bytes) : Bytes :=
  let option := textOf set "output"
  if !option.isEmpty then option
  else if !settings.output.isEmpty then settings.output
  else Path.withoutExtension input ++ ".asm"

def warningText (warnings : List Diagnostic) : Bytes := warnings.flatMap (·.asWarning.report)

def failed (files : Files) (warnings : List Diagnostic) (problem : Problem) : Outcome :=
  { exitCode := 1, stderr := warningText warnings ++ problem.report, files }

def dump (files : Files) (settings : Settings) (input : Bytes) : Outcome :=
  let loaded := load files settings input
  match loaded.program with
  | .error error => failed files loaded.warnings error.problem
  | .ok program =>
    { exitCode := 0, stdout := Bytes.unlines (program.functions.map (·.text))
      stderr := warningText loaded.warnings, files }

def build (lib : Library) (files : Files) (settings : Settings) (input output : Bytes) : Outcome :=
  let compiled := compile files settings input
  match compiled.listing with
  | .error error => failed files compiled.warnings error.problem
  | .ok lines =>
    let content := Bytes.unlines (lines.map Line.text)
    match files.write output content with
    | .error error => failed files compiled.warnings (.within "could not write output" (.plain error.message))
    | .ok written =>
      { exitCode := 0
        stdout := "Output written to '" ++ output ++ "' (" ++ lib.sizeText content.length ++ ")\n"
        stderr := warningText compiled.warnings, files := written }

def act (lib : Library) (files : Files) (command : Command) (args : List Bytes) : Outcome :=
  match args with
  | [input] =>
    match settingsFor lib files command.flags with
    | .error error => failed files [] (projectProblem error)
    | .ok settings =>
      if command.flags.isOn "dump-ast" then dump files settings input
      else build lib files settings input (outputPath command.flags settings input)
  | _ =>
    { exitCode := 1, files
      stderr := (Problem.plain "expected exactly one input file").report ++ command.usagePage }

def run (lib : Library) (files : Files) (args : List Bytes) : Outcome :=
  match command.start args with
  | (_, .error clash) => { exitCode := 2, stderr := clash.message ++ "\n", files }
  | (command, .ok start) =>
    match start with
    | .proceed args =>
      let outcome := act lib files command args
      let waits := command.flags.isOn "wait"
      let prompt : Bytes := if waits then "Press Enter to exit..." else []
      { outcome with stdout := outcome.stdout ++ prompt, waits }
    | .refused error => { exitCode := 1, stderr := (command.shown (.refused error)).2, files }
    | .help => { exitCode := 0, stdout := (command.shown .help).1, files }

/-- The paths that a run may read or write, as far as the files at hand tell. -/
def concerned (lib : Library) (files : Files) (args : List Bytes) : List Bytes :=
  match command.start args with
  | (command, .ok (.proceed [input])) =>
    let named := textOf command.flags "config"
    let config := if named.isEmpty then Project.defaultPath else named
    match settingsFor lib files command.flags with
    | .error _ => [config, input]
    | .ok settings =>
      let output := outputPath command.flags settings input
      [config, output, Path.dir output]
        ++ Preprocess.reachable files settings.includeDirs input
  | _ => []

end Compiler

end Cb
