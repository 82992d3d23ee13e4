import Cb.Files.Basic
import Cb.Settings.Basic

/-! Project files: settings kept beside the sources. -/

namespace Cb

structure Project where
  includeDirs : List Bytes := []
  defines : List (Bytes × Bytes) := []
  warnings : List (Bytes × Bool) := []
  features : List (Bytes × Bool) := []
  output : Bytes := []
deriving DecidableEq, Repr

inductive ProjectError where
  | unreadable (error : FileError)
  | malformed (path : Bytes)
  | unknownWarning (name : Bytes)
  | unknownFeature (name : Bytes)
deriving DecidableEq, Repr

def ProjectError.message : ProjectError → Bytes
  | .unreadable error => error.message
  | .malformed path => path ++ ": malformed document"
  | .unknownWarning name => "unknown warning '" ++ name ++ "' in project file"
  | .unknownFeature name => "unknown feature '" ++ name ++ "' in project file"

namespace Project

def resolve (path : Bytes) (project : Project) : Project :=
  { project with includeDirs := project.includeDirs.map fun dir =>
      if Path.isAbsolute dir then dir else Path.join (Path.dir path) dir }

def load (decode? : Bytes → Option Project) (files : Files) (path : Bytes) : Except ProjectError Project :=
  match files.read path with
  | .error error => .error (.unreadable error)
  | .ok content =>
    match decode? content with
    | some project => .ok (project.resolve path)
    | none => .error (.malformed path)

def defaultPath : Bytes := "cbc.yaml"

end Project

namespace Settings

def applyWarnings (s : Settings) : List (Bytes × Bool) → Settings × Option ProjectError
  | [] => (s, none)
  | (name, on) :: rest =>
    match Warning.find? name with
    | some w => (s.setWarning w on).applyWarnings rest
    | none => (s, some (.unknownWarning name))

def applyFeatures (s : Settings) : List (Bytes × Bool) → Settings × Option ProjectError
  | [] => (s, none)
  | (name, on) :: rest =>
    match Feature.find? name with
    | some f => (s.setFeature f on).applyFeatures rest
    | none => (s, some (.unknownFeature name))

/-- Takes over a project up to the first unknown name. A macro without a value is defined as 1. -/
def applyProject (s : Settings) (project : Project) : Settings × Option ProjectError :=
  match s.applyWarnings project.warnings with
  | (s, some error) => (s, some error)
  | (s, none) =>
    match s.applyFeatures project.features with
    | (s, some error) => (s, some error)
    | (s, none) =>
      let define (macros : Macros) (entry : Bytes × Bytes) : Macros :=
        macros.set entry.1 (if entry.2.isEmpty then "1" else entry.2)
      ({ s with
          defines := project.defines.foldl define s.defines
          includeDirs := s.includeDirs ++ project.includeDirs
          output := if project.output.isEmpty then s.output else project.output }, none)

end Settings

end Cb
