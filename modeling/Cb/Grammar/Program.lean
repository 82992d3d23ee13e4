import Cb.Grammar.Statement

/-! Rules for functions, and the reading of whole programs. -/

namespace Cb

namespace Rule

def params (c : Checkpoint) : Nat → List Bytes → Rule (List Param × Bool)
  | 0, _ => exhausted
  | n + 1, seen => do
    skip
    if ← test ')' then return ([], true)
    else
      let ty ← orReject dataType c (.invalid "type")
      if ty = .void then reject c .voidVariable else
      let code ← peek
      let found ← if code = ','.toNat || code = ')'.toNat then pure none
        else do
          let name ← name c "parameter name"
          if seen.contains name then reject c (.variableDefined name) else
          skip
          pure (some name)
      let param : Param := ⟨found.getD [], ty⟩
      if !(← test ',') then
        let code ← peek
        if code ≠ ')'.toNat then reject c (.expectedCommaOrParen code)
      let (rest, named) ← params c n (found.toList ++ seen)
      return (param :: rest, found.isSome && named)

def register (f : Function) (c : Checkpoint) : Rule Unit := do
  match (← scope).addFunction f with
  | .ok extended => setScope extended
  | .error error => reject c (.register error)

def exitFunction : Rule Unit := update fun r => { r with scope := r.scope.exitFunction.2 }

def defineParams (scope : Scope) (params : List Param) : Scope :=
  params.foldl (fun scope param => (scope.defineVariable param.name param.ty).2) scope

/-- Reads a function. It is registered before its body, so that it can call itself. -/
def function (n : Nat) : Rule Unit := do
  let c ← checkpoint
  let returns ← orReject dataType c (.invalid "type")
  let name ← name c "name"
  if name = "test" then reject c (.invalid "name") else
  update fun r => { r with scope := r.scope.enterFunction }
  skip
  expect '(' c
  let (params, named) ← params c n []
  let f : Function := { name, returns, params, pos := c.pos }
  skip
  if ← test ';' then
    register f c
    exitFunction
  else if !named then reject c .unnamedParameter
  else
    register f c
    update fun r => { r with scope := (defineParams r.scope params).enterFrame }
    let body ← orReject (block n { returns }) c (.invalid "function body")
    exitFunction
    update fun r => { r with scope := r.scope.implement name body }

/-- Reads functions until the source ends; each call of a rule may use `depth` nested calls. -/
def functions (depth : Nat) : Nat → Rule Unit
  | 0 => exhausted
  | n + 1 => do
    if (← peek) = endOfFile then return ()
    else
      function depth
      skip
      functions depth n

end Rule

/-- More nested calls of rules than a source of this size can lead to. -/
def Source.depth (source : Source) : Nat := 16 * (source.size + 1)

structure Parsed where
  program : Except Diagnostic Program
  warnings : List Diagnostic

/-- Reads a program. The error is the failure that got furthest. -/
def parse (env : Env) : Parsed :=
  let source := env.source
  let rule : Rule Unit := do
    Rule.skip
    Rule.functions source.depth (source.size + 1)
  let failed (r : Reader) : Diagnostic :=
    (r.failure? source).getD (source.diagnostic r.pos "invalid function definition")
  match rule env {} with
  | .ok _ r => ⟨.ok ⟨r.scope.functions⟩, r.remarks.map source.warning⟩
  | .fail r => ⟨.error (failed r), r.remarks.map source.warning⟩
  | .exhausted => ⟨.error (failed {}), []⟩

end Cb
