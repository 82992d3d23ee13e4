import Cb.Preprocess.Basic

/-! The files that preprocessing may ask for. Groups are not looked at, so this is more than what
is read in the end. -/

namespace Cb.Preprocess

def mentioned (includeDirs : List Bytes) (path content : Bytes) : List Bytes :=
  (linesOf content).flatMap fun raw =>
    match directiveOf raw with
    | some (.include argument) =>
      match Target.parse argument with
      | .path name => [if Path.isAbsolute name then name else Path.join (Path.dir path) name]
      | .library name => includeDirs.map (Path.join · name)
      | .invalid _ => []
    | _ => []

def widen (files : Files) (includeDirs : List Bytes) (paths : List Bytes) : List Bytes :=
  let inner := paths.flatMap fun path =>
    match files.read path with
    | .error _ => []
    | .ok content => mentioned includeDirs path content
  (paths ++ inner).eraseDups

def reachable (files : Files) (includeDirs : List Bytes) (path : Bytes) : List Bytes :=
  files.entries.foldl (fun paths _ => widen files includeDirs paths) [path]

end Cb.Preprocess
