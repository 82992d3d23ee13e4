import Cb.Grammar.Program
import Cb.Lower.Program
import Cb.Preprocess.Basic

/-! From a file to its assembly listing. -/

namespace Cb

inductive Stage where
  | preprocess
  | parse
  | generate
deriving DecidableEq, Repr

structure CompileError where
  stage : Stage
  problem : Problem

structure Compiled where
  listing : Except CompileError (List Line)
  warnings : List Diagnostic

structure Loaded where
  program : Except CompileError Program
  settings : Settings
  warnings : List Diagnostic

def load (files : Files) (settings : Settings) (path : Bytes) : Loaded :=
  match (Preprocessor.ofSettings settings).expand files path with
  | (.error d, p) => ⟨.error ⟨.preprocess, .diagnostic d⟩, p.settings, p.warnings⟩
  | (.ok lines, p) =>
    let parsed := parse ⟨Source.ofLines lines, p.settings⟩
    ⟨parsed.program.mapError fun d => ⟨.parse, .diagnostic d⟩, p.settings, p.warnings ++ parsed.warnings⟩

def compile (files : Files) (settings : Settings) (path : Bytes) : Compiled :=
  let loaded := load files settings path
  match loaded.program with
  | .error error => ⟨.error error, loaded.warnings⟩
  | .ok program =>
    let generated := program.generate loaded.settings
    match generated.problem with
    | some problem => ⟨.error ⟨.generate, problem⟩, loaded.warnings⟩
    | none => ⟨.ok generated.lines, loaded.warnings ++ generated.warnings⟩

end Cb
