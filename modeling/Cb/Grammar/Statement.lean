import Cb.Grammar.Expression

/-! Rules for statements. Variables live until the block or loop that declares them ends. -/

namespace Cb.Rule

/-- Where a statement stands: in a function with this return type, and in a loop whose body starts at
this height of the variable stack. -/
structure Place where
  returns : Ty
  loop : Option Nat := none

def condition (n : Nat) (c : Checkpoint) : Rule Expr := do
  let e ← orReject (expression n) c (.invalid "condition")
  let e ← if e.ty.isPointer || e.ty.isArithmetic then
      built (Build.binary .multiply e.pos .notEqual e (Build.literal e.pos 0 e.ty)) c
    else pure e
  if e.ty = .flags then return e else reject c (.conditionType e.ty)

def breakLoop (place : Place) : Rule Stmt := do
  let c ← checkpoint
  keyword "break" c
  skip
  expect ';' c
  match place.loop with
  | none => reject c .breakOutsideLoop
  | some height => return .breakLoop c.pos ((← scope).bytesSince height)

def continueLoop (place : Place) : Rule Stmt := do
  let c ← checkpoint
  keyword "continue" c
  skip
  expect ';' c
  match place.loop with
  | none => reject c .continueOutsideLoop
  | some height => return .continueLoop c.pos ((← scope).bytesSince height)

def assemblyLines (c : Checkpoint) : Nat → Rule (List Bytes)
  | 0 => exhausted
  | n + 1 => do
    if ← atEnd then reject c (.expected '\x7d'.toNat endOfFile)
    else
      skip
      if ← test '\x7d' then return []
      else
        let line := trim (← restOfLine)
        let rest ← assemblyLines c n
        return if line.isEmpty then rest else line :: rest

def assembly : Rule Stmt := do
  let c ← checkpoint
  keyword "__asm" c
  skip
  expect '\x7b' c
  if ← isOn .asm then
    let lines ← assemblyLines c ((← sourceSize) + 2)
    return .assembly c.pos lines
  else reject c .assemblyDisabled

def returnStatement (n : Nat) (place : Place) : Rule Stmt := do
  let c ← checkpoint
  keyword "return" c
  skip
  if place.returns = .void then
    expect ';' c
    return .ret c.pos none (← scope).localBytes
  else
    let e ← orReject (expression n) c (.invalid "return expression")
    skip
    expect ';' c
    let e ← built (Build.implicit e place.returns) c
    return .ret c.pos (some e) (← scope).localBytes

/-- A new variable must not hide a variable of the function, nor a function. -/
def checkNewName (name : Bytes) (c : Checkpoint) : Rule Unit := do
  if ((← scope).findVariable? name).isSome then reject c (.variableDefined name)
  else if ((← scope).findFunction? name).isSome then reject c (.functionDefined name)

/-- Reads the rest of `type name[length];`. The storage lies above the pointer variable. -/
def arrayDeclaration (n : Nat) (c : Checkpoint) (name : Bytes) (element : Ty) : Rule Stmt := do
  if !(← isOn .arrays) then reject c .arraysDisabled else
  skip
  let length ← orReject (expression n) c .arraySizeNotConstant
  if !length.isConstant || !length.ty.isArithmetic then reject c .arraySizeNotConstant else
  if length.value ≤ 0 then reject c .arraySizeNotPositive else
  skip
  expect ']' c
  skip
  expect ';' c
  let size := length.value * element.size
  let (storage, extended) := (← scope).define [] element size
  let (offset, extended) := extended.defineVariable name element.ref
  setScope extended
  return .declare c.pos
    { name, ty := element.ref, offset, array := some ⟨length.value, size + size.tmod 2, storage⟩ }

/-- Reads `type name;`, `type name = expression;` or `type name[length];`. The name is not yet visible
in its initial value. -/
def declaration (n : Nat) : Rule Stmt := do
  let c ← checkpoint
  let ty ← orReject dataType c (.invalid "variable type")
  if ty = .void then reject c .voidVariable else
  let name ← name c "variable name"
  checkNewName name c
  skip
  if ← test '[' then arrayDeclaration n c name ty
  else
    let init ← if ← test '=' then do
        skip
        let e ← orReject (expression n) c (.invalid "initial value")
        let e ← built (Build.implicit e ty) c
        skip
        pure (some e)
      else pure none
    expect ';' c
    let (offset, extended) := (← scope).defineVariable name ty
    setScope extended
    return .declare c.pos { name, ty, init, offset }

def evaluation (n : Nat) : Rule Stmt := do
  let c ← checkpoint
  let e ← expression n
  skip
  expect ';' c
  return .evaluate c.pos e

def initializer (n : Nat) (c : Checkpoint) : Rule (Option Stmt) := do
  if ← test ';' then return none
  else match ← optional (declaration n) with
    | some s => return some s
    | none =>
      let e ← orReject (expression n) c (.invalid "initializer")
      skip
      expect ';' c
      return some (.evaluate e.pos e)

def loopCondition (n : Nat) (c : Checkpoint) : Rule (Option Expr) := do
  if ← test ';' then return none
  else
    let e ← condition n c
    skip
    expect ';' c
    return some e

def incrementer (n : Nat) (c : Checkpoint) : Rule (Option Expr) := do
  if (← peek) = ')'.toNat then
    expect ')' c
    return none
  else
    let e ← orReject (expression n) c (.invalid "incrementer")
    skip
    expect ')' c
    return some e

def exitBlock : Rule Int := do
  let (bytes, remaining) := (← scope).exitBlock
  setScope remaining
  return bytes

mutual

def statement : Nat → Place → Rule Stmt
  | 0, _ => exhausted
  | n + 1, place => do
    if (← peek) = '\x7b'.toNat then block n place
    else
      orElse (breakLoop place) <| orElse (continueLoop place) <| orElse assembly <|
      orElse (branch n place) <| orElse (forLoop n place) <| orElse (whileLoop n place) <|
      orElse (returnStatement n place) <| orElse (declaration n) <| evaluation n
termination_by structural n => n

def block : Nat → Place → Rule Stmt
  | 0, _ => exhausted
  | n + 1, place => do
    let c ← checkpoint
    if ← test ';' then return .block c.pos [] 0
    else if ← test '\x7b' then
      update fun r => { r with scope := r.scope.enterBlock }
      skip
      let body ← items n place c false false
      return .block c.pos body (← exitBlock)
    else
      update fun r => { r with scope := r.scope.enterBlock }
      let s ← orRestore (statement n place) c
      return .block c.pos [s] (← exitBlock)
termination_by structural n => n

/-- Reads the statements of a block and its closing brace. The first statement after one that
terminates is unreachable. -/
def items : Nat → Place → Checkpoint → (terminated warned : Bool) → Rule (List Stmt)
  | 0, _, _, _, _ => exhausted
  | n + 1, place, c, terminated, warned => do
    if ← test '\x7d' then return []
    else if (← peek) = endOfFile then reject c (.expected '\x7d'.toNat endOfFile)
    else
      let pos ← position
      let s ← orRestore (statement n place) c
      if terminated && !warned then warn .unreachableCode pos "unreachable code"
      skip
      return s :: (← items n place c (terminated || s.terminates) terminated)
termination_by structural n => n

def branch : Nat → Place → Rule Stmt
  | 0, _ => exhausted
  | n + 1, place => do
    let c ← checkpoint
    keyword "if" c
    skip
    expect '(' c
    skip
    let e ← condition n c
    skip
    expect ')' c
    skip
    let yes ← orReject (block n place) c (.invalid "if body")
    let afterYes ← checkpoint
    skip
    match ← optional (keyword "else" afterYes) with
    | none => return .branch c.pos (some e) yes none
    | some _ =>
      skip
      let no ← orReject (block n place) c (.invalid "else body")
      return .branch c.pos (some e) yes (some no)
termination_by structural n => n

def loopBody : Nat → Place → Rule Stmt
  | 0, _ => exhausted
  | n + 1, place => do
    let height := (← scope).height
    block n { place with loop := some height }
termination_by structural n => n

def whileLoop : Nat → Place → Rule Stmt
  | 0, _ => exhausted
  | n + 1, place => do
    let c ← checkpoint
    keyword "while" c
    skip
    expect '(' c
    skip
    let e ← condition n c
    skip
    expect ')' c
    skip
    let body ← orReject (loopBody n place) c (.invalid "while body")
    return .whileLoop c.pos (some e) body
termination_by structural n => n

/-- Reads `for (init; condition; post) body`. What the first clause declares lives until the loop
ends. -/
def forLoop : Nat → Place → Rule Stmt
  | 0, _ => exhausted
  | n + 1, place => do
    let c ← checkpoint
    keyword "for" c
    skip
    expect '(' c
    skip
    let height := (← scope).height
    let init ← initializer n c
    skip
    let e ← loopCondition n c
    skip
    let post ← incrementer n c
    skip
    let body ← orReject (loopBody n place) c (.invalid "for body")
    let cleanup := (← scope).bytesSince height
    update fun r => r.restoreScope c
    return .forLoop c.pos init e post body cleanup
termination_by structural n => n

end

end Cb.Rule
