import Cb.Grammar.Rule

/-! Rules for expressions. Operators are applied with a stack of values and a stack of pending
operators, in the order of their tiers. -/

namespace Cb.Rule

structure Pending where
  op : Operator
  pos : Position

/-- Applies the pending operators that bind at least as tightly as the incoming one; all of them
when none comes in. Both stacks have their newest element first. -/
def applyPending (scaling : Scaling) (incoming : Option Operator) :
    List Pending → List Expr → Except BuildError (List Pending × List Expr)
  | [], values => .ok ([], values)
  | top :: pending, values =>
    if incoming.all (top.op.reducesBefore ·) then
      match values with
      | right :: left :: rest => do
        let e ← Build.binary scaling top.pos top.op left right
        applyPending scaling incoming pending (e :: rest)
      | _ => .ok ([], values)
    else .ok (top :: pending, values)

def operator : Rule (Option Operator) := do
  let c ← checkpoint
  if ← test '+' then return some .add
  if ← test '-' then return some .subtract
  if ← test '*' then return some .multiply
  if ← test '/' then return some .divide
  if ← test '%' then return some .modulo
  if ← test '>' then
    if ← test '=' then return some .greaterEqual
    if ← test '>' then return some .shiftRight
    return some .greater
  if ← test '<' then
    if ← test '=' then return some .lessEqual
    if ← test '<' then return some .shiftLeft
    return some .less
  if ← test '=' then
    if ← test '=' then return some .equal
    return some .assign
  if ← test '!' then
    if ← test '=' then return some .notEqual
    none? c
  else if ← test '|' then return some .or
  else if ← test '^' then return some .xor
  else if ← test '&' then return some .and
  else none? c
where
  none? (c : Checkpoint) : Rule (Option Operator) := optional (reject c (.invalid "operator"))

def null : Rule Expr := do
  let c ← checkpoint
  keyword "NULL" c
  return Build.null c.pos

/-- Reads a variable. A name before a parenthesis is none. -/
def namedVariable : Rule Expr := do
  let c ← checkpoint
  let name := lower (← word)
  if name.isEmpty then reject c (.invalid "name") else
  match (← scope).findVariable? name with
  | none => reject c (.variableUndefined name)
  | some v =>
    let afterName ← checkpoint
    skip
    if (← peek) = '('.toNat then reject c (.invalid "variable usage") else
    restore afterName
    return Build.var c.pos name v.ty v.offset

def sizeOf : Rule Expr := do
  let c ← checkpoint
  keyword "sizeof" c
  skip
  expect '(' c
  skip
  let size ← orElse (do return (← dataType).size) (do
    match (← scope).findVariable? (lower (← word)) with
    | none => reject c (.invalid "variable or type")
    | some v =>
      skip
      return v.ty.size)
  expect ')' c
  return Build.literal c.pos size .int

def escaped? (code : Nat) : Option Nat :=
  if code = 'n'.toNat then some 10
  else if code = 'r'.toNat then some 13
  else if code = '0'.toNat then some 0
  else if code = '\''.toNat || code = '\\'.toNat then some code
  else none

def character (c : Checkpoint) : Rule Nat := do
  let code ← advance
  let value ← if code = '\\'.toNat then do
      let code ← advance
      match escaped? code with
      | some value => pure value
      | none => reject c (.unknownEscape code)
    else pure code
  expect '\'' c
  return value

def digit? : Rule (Option Nat) := do
  let code ← peek
  if isDigit code then
    let _ ← advance
    return some (code - 48)
  else return none

def digits (c : Checkpoint) : Nat → Int → Rule Int
  | 0, number => do
    match ← digit? with
    | some digit => reject c (.literalOutOfBounds (number * 10 + digit))
    | none => return number
  | room + 1, number => do
    match ← digit? with
    | some digit => digits c room (number * 10 + digit)
    | none => return number

def literal : Rule Expr := do
  let c ← checkpoint
  let negative ← test '-'
  if ← test '\'' then
    let code : Int := (← character c : Nat)
    return Build.number c.pos (if negative then -code else code)
  else if isDigit (← peek) then
    let magnitude ← digits c 6 0
    let value := if negative then -magnitude else magnitude
    if value < -32768 || 65535 < value then reject c (.literalOutOfBounds value)
    else return Build.number c.pos value
  else reject c (.invalid "integer literal")

mutual

def expression : Nat → Rule Expr
  | 0 => exhausted
  | n + 1 => do
    let c ← checkpoint
    let first ← orReject (operand n) c (.invalid "mathematical expression")
    operations n c [] [first]
termination_by structural n => n

def operations : Nat → Checkpoint → List Pending → List Expr → Rule Expr
  | 0, _, _, _ => exhausted
  | n + 1, c, pending, values => do
    let afterOperand ← checkpoint
    skip
    let pos ← position
    let incoming ← operator
    let (pending, values) ← built (applyPending (← scaling) incoming pending values) c
    match incoming with
    | none => do
      restore afterOperand
      match values with
      | e :: _ => return e
      | [] => fails c
    | some op => do
      skip
      let next ← orReject (operand n) c (.invalid "operand")
      operations n c (⟨op, pos⟩ :: pending) (next :: values)
termination_by structural n => n

def operand : Nat → Rule Expr
  | 0 => exhausted
  | n + 1 => orElse (cast n) do
    if (← peek) = '('.toNat then paren n else value n
termination_by structural n => n

def paren : Nat → Rule Expr
  | 0 => exhausted
  | n + 1 => do
    let c ← checkpoint
    expect '(' c
    skip
    let e ← orReject (expression n) c (.invalid "mathematical expression")
    skip
    expect ')' c
    return e
termination_by structural n => n

def value : Nat → Rule Expr
  | 0 => exhausted
  | n + 1 =>
    orElse null <| orElse (increment n) <| orElse (cast n) <| orElse sizeOf <| orElse (call n) <|
    orElse (arrayAccess n) <| orElse namedVariable <| orElse literal <| orElse (deref n) <|
    orElse (reference n) <| failHere (.invalid "math expression")
termination_by structural n => n

def increment : Nat → Rule Expr
  | 0 => exhausted
  | n + 1 => do
    let c ← checkpoint
    if ← testText "++" then step n c false
    else if ← testText "--" then step n c true
    else fails c
termination_by structural n => n

def step : Nat → Checkpoint → Bool → Rule Expr
  | 0, _, _ => exhausted
  | n + 1, c, down => do
    skip
    let target ← orReject (value n) c (.invalid "increment operand")
    built (Build.step c.pos target down) c
termination_by structural n => n

/-- Reads `(type) value` or `(type)(expression)`. -/
def cast : Nat → Rule Expr
  | 0 => exhausted
  | n + 1 => do
    let c ← checkpoint
    expect '(' c
    skip
    let target ← orRestore dataType c
    expect ')' c
    skip
    let inner ← orReject (do if (← peek) = '('.toNat then paren n else value n) c
      (.invalid "cast operand")
    let e ← built (Build.cast inner target) c
    if inner.isConstant && e.value ≠ inner.value then
      warn .truncation c.pos ("cast of constant " ++ Bytes.ofInt inner.value ++ " to " ++ target.text
        ++ " truncates it to " ++ Bytes.ofInt e.value)
    return e
termination_by structural n => n

def call : Nat → Rule Expr
  | 0 => exhausted
  | n + 1 => do
    let c ← checkpoint
    let name := lower (← word)
    if name.isEmpty then reject c (.invalid "function name") else
    expect '(' c
    skip
    let arguments ← if ← test ')' then pure [] else arguments n c
    match (← scope).findFunction? name with
    | none => reject c (.functionUndefined name)
    | some callee => built (Build.call c.pos callee.toSignature arguments) c
termination_by structural n => n

def arguments : Nat → Checkpoint → Rule (List Expr)
  | 0, _ => exhausted
  | n + 1, c => do
    skip
    let e ← orReject (expression n) c (.invalid "call parameter")
    skip
    if ← test ',' then return e :: (← arguments n c)
    else
      expect ')' c
      return [e]
termination_by structural n => n

def arrayAccess : Nat → Rule Expr
  | 0 => exhausted
  | n + 1 => do
    let c ← checkpoint
    let base ← orRestore namedVariable c
    skip
    expect '[' c
    skip
    let index ← orReject (expression n) c (.invalid "index")
    skip
    expect ']' c
    built (Build.index (← scaling) c.pos base index) c
termination_by structural n => n

/-- Reads `*variable`, `*(expression)` or `**…`. -/
def deref : Nat → Rule Expr
  | 0 => exhausted
  | n + 1 => do
    let c ← checkpoint
    expect '*' c
    skip
    let address ← orReject (do
      let code ← peek
      if code = '('.toNat then paren n
      else if code = '*'.toNat then deref n
      else namedVariable) c (.invalid "dereference operand")
    built (Build.deref c.pos address) c
termination_by structural n => n

/-- Reads `&variable`, `&a[i]` or `&*…`. -/
def reference : Nat → Rule Expr
  | 0 => exhausted
  | n + 1 => do
    let c ← checkpoint
    expect '&' c
    skip
    let target ← orReject (do
      if (← peek) = '*'.toNat then deref n
      else orElse (arrayAccess n) namedVariable) c .noAddress
    built (Build.addressOf c.pos target) c
termination_by structural n => n

end

end Cb.Rule
