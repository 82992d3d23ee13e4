import Cb.Diagnostic
import Cb.Program

/-! Which functions a program needs. -/

namespace Cb

def entryName : Bytes := "main"

inductive LinkError where
  | entryMissing
  | entryTakesParameters
  | entryReturnsValue
  | notDefined (name : Bytes)
  | notImplemented (name : Bytes)
deriving DecidableEq, Repr

namespace LinkError

def message : LinkError → Bytes
  | .entryMissing => "main function not found"
  | .entryTakesParameters => "main must take 0 parameters"
  | .entryReturnsValue => "main must return void"
  | .notDefined name => "function " ++ name ++ " is called but not defined"
  | .notImplemented name => "function " ++ name ++ " is called but not implemented"

def diagnostic (error : LinkError) : Diagnostic := { message := error.message }

end LinkError

namespace Program

def checkEntry (program : Program) : Except LinkError Function :=
  match program.find? entryName with
  | none => .error .entryMissing
  | some entry =>
    if !entry.params.isEmpty then .error .entryTakesParameters
    else if entry.returns ≠ .void then .error .entryReturnsValue
    else if !entry.isImplemented then .error (.notImplemented entryName)
    else .ok entry

def discover (program : Program) : List Bytes → List Bytes → Except LinkError (List Bytes × List Function)
  | seen, [] => .ok (seen, [])
  | seen, name :: names =>
    if seen.contains name then program.discover seen names
    else match program.find? name with
      | none => .error (.notDefined name)
      | some callee =>
        if !callee.isImplemented then .error (.notImplemented name)
        else do
          let (seen, found) ← program.discover (seen ++ [name]) names
          return (seen, callee :: found)

/-- Visits waiting functions in order. Every visit needs a new name, so that no more than the number
of functions are made. -/
def visit (program : Program) : Nat → List Bytes → List Function → Except LinkError (List Bytes)
  | 0, seen, _ => .ok seen
  | _ + 1, seen, [] => .ok seen
  | limit + 1, seen, f :: waiting => do
    let (seen, found) ← program.discover seen f.calls
    program.visit limit seen (waiting ++ found)

def reachable (program : Program) : Except LinkError (List Bytes) := do
  let entry ← program.checkEntry
  program.visit (program.functions.length + 1) [entryName] [entry]

end Program

end Cb
