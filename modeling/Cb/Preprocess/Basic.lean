import Cb.Files.Basic
import Cb.Preprocess.Directive
import Cb.Reader.Basic

/-! Preprocessing: files become one stream of lines. Comments are cut, includes are put in place,
macros are expanded, and groups that are not taken are left out. Every line keeps its origin. -/

namespace Cb

inductive PreprocessError where
  | invalidName (name : Bytes)
  | alreadyDefined (name : Bytes)
  | notDefined (name : Bytes)
  | elseWithoutIf
  | secondElse
  | endWithoutIf
  | invalidInclude (argument : Bytes)
  | missingLibrary (name : Bytes)
  | unknownDirective (text : Bytes)
deriving DecidableEq, Repr

def PreprocessError.message : PreprocessError → Bytes
  | .invalidName name => "invalid definition: " ++ name
  | .alreadyDefined name => name ++ " is already defined"
  | .notDefined name => "constant is not defined: " ++ name
  | .elseWithoutIf => "else directive without corresponding if"
  | .secondElse => "current if already has else directive"
  | .endWithoutIf => "endif directive without corresponding if"
  | .invalidInclude argument => "invalid include: " ++ argument
  | .missingLibrary name => "can't find library: " ++ name
  | .unknownDirective text => "unknown preprocessor directive: #" ++ text

structure Preprocessor where
  settings : Settings
  macros : Macros
  warnings : List Diagnostic := []
  opened : List Bytes := []

namespace Preprocessor

def ofSettings (settings : Settings) : Preprocessor := { settings, macros := settings.defines }

def opening (place : Bytes) (p : Preprocessor) : Preprocessor := { p with opened := place :: p.opened }

def closing (place : Bytes) (p : Preprocessor) : Preprocessor := { p with opened := p.opened.erase place }

end Preprocessor

namespace Preprocess

structure SourceLine where
  text : Bytes
  origin : Bytes
deriving DecidableEq, Repr

structure Group where
  outerTaken : Bool
  condition : Bool
  hasElse : Bool := false
deriving DecidableEq, Repr

def Group.isTaken (group : Group) : Bool := group.outerTaken && group.condition != group.hasElse

def isTaken : List Group → Bool
  | [] => true
  | group :: _ => group.isTaken

abbrev Attempted (α : Type) := Except Diagnostic α × Preprocessor

abbrev Outcome := Attempted (List SourceLine)

structure Located where
  origin : Bytes
  raw : Bytes

def Located.fail (line : Located) (error : PreprocessError) : Diagnostic :=
  { message := error.message, origin := line.origin, source := line.raw }

def Located.warn (line : Located) (message : Bytes) (p : Preprocessor) : Preprocessor :=
  if p.settings.warnings .extra then
    { p with warnings := p.warnings ++
        [{ message, origin := line.origin, source := line.raw, severity := .warning
           flag := Warning.extra.flag }] }
  else p

def pragma (line : Located) (argument : Bytes) (p : Preprocessor) : Preprocessor :=
  let (owner, flags) := splitWord argument
  if owner = "cbc" then
    let (settings, unknown) := p.settings.applyLine flags
    unknown.foldl (fun p flag => line.warn ("unknown pragma flag: " ++ flag) p) { p with settings }
  else line.warn ("unknown pragma: " ++ owner) p

def define (argument : Bytes) (macros : Macros) : Except PreprocessError Macros :=
  let (name, value) := splitWord argument
  if !isName name then .error (.invalidName name)
  else if macros.has name then .error (.alreadyDefined name)
  else .ok (macros.set name (if value.isEmpty then "1" else value))

def undefine (name : Bytes) (macros : Macros) : Except PreprocessError Macros :=
  if macros.has name then .ok (macros.erase name) else .error (.notDefined name)

/-- The path that an include in the file at `path` names. Libraries are looked up in the include
directories. -/
def resolve (files : Files) (includeDirs : List Bytes) (path argument : Bytes) :
    Except PreprocessError Bytes :=
  match Target.parse argument with
  | .path name => .ok (if Path.isAbsolute name then name else Path.join (Path.dir path) name)
  | .library name =>
    match (includeDirs.map (Path.join · name)).find? files.exists? with
    | some candidate => .ok candidate
    | none => .error (.missingLibrary name)
  | .invalid argument => .error (.invalidInclude argument)

def control (line : Located) (groups : List Group) (p : Preprocessor) :
    Directive → Except Diagnostic (List Group × Preprocessor)
  | .ifDefined name wanted =>
    if isName name then
      .ok ({ outerTaken := isTaken groups, condition := p.macros.has name == wanted } :: groups, p)
    else .error (line.fail (.invalidName name))
  | .otherwise =>
    match groups with
    | [] => .error (line.fail .elseWithoutIf)
    | group :: outer =>
      if group.hasElse then .error (line.fail .secondElse) else .ok ({ group with hasElse := true } :: outer, p)
  | .endIf =>
    match groups with
    | [] => .error (line.fail .endWithoutIf)
    | _ :: outer => .ok (outer, p)
  | .define argument =>
    if isTaken groups then
      match define argument p.macros with
      | .ok macros => .ok (groups, { p with macros })
      | .error error => .error (line.fail error)
    else .ok (groups, p)
  | .undef name =>
    if isTaken groups then
      match undefine name p.macros with
      | .ok macros => .ok (groups, { p with macros })
      | .error error => .error (line.fail error)
    else .ok (groups, p)
  | .pragma argument => .ok (groups, if isTaken groups then pragma line argument p else p)
  | .unknown text => .error (line.fail (.unknownDirective text))
  | .include _ => .ok (groups, p)

def originOf (path : Bytes) (number : Nat) : Bytes := "file: " ++ path ++ ", line: " ++ Bytes.ofNat number

def directiveOf (raw : Bytes) : Option Directive := Directive.parse? (cutComment raw)

/-- Reads one line of a file: the groups that are open after it, and the lines that it stands for.
`inner` preprocesses an included file. -/
def scanLine (inner : Bytes → Preprocessor → Outcome) (files : Files) (path : Bytes) (number : Nat)
    (groups : List Group) (p : Preprocessor) (raw : Bytes) : Attempted (List Group × List SourceLine) :=
  let located : Located := ⟨originOf path number, raw⟩
  match directiveOf raw with
  | none => (.ok (groups, if isTaken groups then [⟨replace p.macros (cutComment raw), located.origin⟩] else []), p)
  | some (.include argument) =>
    if isTaken groups then
      match resolve files p.settings.includeDirs path argument with
      | .error error => (.error (located.fail error), p)
      | .ok target =>
        match inner target p with
        | (.error d, p) => (.error d, p)
        | (.ok lines, p) => (.ok (groups, lines), p)
    else (.ok (groups, []), p)
  | some directive =>
    match control located groups p directive with
    | .error d => (.error d, p)
    | .ok (groups, p) => (.ok (groups, []), p)

def scanLines (inner : Bytes → Preprocessor → Outcome) (files : Files) (path : Bytes) :
    Nat → List Group → Preprocessor → List Bytes → Attempted (List Group × List SourceLine)
  | _, groups, p, [] => (.ok (groups, []), p)
  | number, groups, p, raw :: rest =>
    match scanLine inner files path number groups p raw with
    | (.error d, p) => (.error d, p)
    | (.ok (groups, lines), p) =>
      match scanLines inner files path (number + 1) groups p rest with
      | (.error d, p) => (.error d, p)
      | (.ok (groups, others), p) => (.ok (groups, lines ++ others), p)

def scanFile (inner : Bytes → Preprocessor → Outcome) (files : Files) (path : Bytes) (p : Preprocessor)
    (lines : List Bytes) : Outcome :=
  match scanLines inner files path 1 [] p lines with
  | (.error d, p) => (.error d, p)
  | (.ok (groups, lines), p) =>
    if groups.isEmpty then (.ok lines, p)
    else (.error { message := "open if directive", origin := "file: " ++ path }, p)

def unifyBreaks : Bytes → Bytes
  | [] => []
  | 13 :: 10 :: rest => 10 :: unifyBreaks rest
  | b :: rest => b :: unifyBreaks rest

def linesOf (content : Bytes) : List Bytes := Bytes.lines (unifyBreaks content)

def cycle (path : Bytes) : Diagnostic := { message := "include cycle: " ++ path }

/-- Preprocesses a file, which must not be one that is being expanded. `inner` preprocesses the files that
it includes. -/
def expandOnce (inner : Bytes → Preprocessor → Outcome) (files : Files) (path : Bytes) (p : Preprocessor) : Outcome :=
  let place := files.absolute path
  if p.opened.contains place then (.error (cycle path), p)
  else match files.read path with
    | .error error => (.error (Diagnostic.because ("can't open file: " ++ path) error.cause), p)
    | .ok content =>
      let (result, p) := scanFile inner files path (p.opening place) (linesOf content)
      (result, p.closing place)

/-- Preprocesses a file, with includes nested up to a depth. No file is included again while it is being
expanded, so that includes nest no deeper than there are files. -/
def expandFile (files : Files) : Nat → Bytes → Preprocessor → Outcome
  | 0, path, p => (.error (cycle path), p)
  | depth + 1, path, p => expandOnce (expandFile files depth) files path p

end Preprocess

def Preprocessor.expand (p : Preprocessor) (files : Files) (path : Bytes) : Preprocess.Outcome :=
  Preprocess.expandFile files (files.entries.length + 1) path p

def Source.ofLines (lines : List Preprocess.SourceLine) : Source where
  lines := (lines.map (·.text)).toArray
  origins := (lines.map (·.origin)).toArray

end Cb
