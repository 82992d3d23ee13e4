import Cb.Grammar.Program

/-! Parts of rules: what several branches of a rule, or two rules, have in common. -/

namespace Cb.Rule

def derefTarget (n : Nat) : Rule Expr := do
  let code ← peek
  if code = '('.toNat then paren n
  else if code = '*'.toNat then deref n
  else namedVariable

def addressTarget (n : Nat) : Rule Expr := do
  if (← peek) = '*'.toNat then deref n
  else orElse (arrayAccess n) namedVariable

def callNamed (c : Checkpoint) (name : Bytes) (given : List Expr) : Rule Expr := do
  match (← scope).findFunction? name with
  | none => reject c (.functionUndefined name)
  | some callee => built (Build.call c.pos callee.toSignature given) c

def leaveLoop (text : Bytes) (reason : Reason) (leave : Position → Int → Stmt) (place : Place) : Rule Stmt := do
  let c ← checkpoint
  keyword text c
  skip
  expect ';' c
  match place.loop with
  | none => reject c reason
  | some height => return leave c.pos ((← scope).bytesSince height)

def declare (c : Checkpoint) (name : Bytes) (ty : Ty) (init : Option Expr) : Rule Stmt := do
  expect ';' c
  let defined := (← scope).defineVariable name ty
  setScope defined.2
  return .declare c.pos { name, ty, init, offset := defined.1 }

def laterItems (n : Nat) (place : Place) (c : Checkpoint) (terminated : Bool) (s : Stmt) : Rule (List Stmt) := do
  skip
  return s :: (← items n place c (terminated || s.terminates) terminated)

def consParam (ty : Ty) (found : Option Bytes) (others : List Param × Bool) : List Param × Bool :=
  (⟨found.getD [], ty⟩ :: others.1, found.isSome && others.2)

def laterParams (c : Checkpoint) (n : Nat) (seen : List Bytes) (ty : Ty) (found : Option Bytes) :
    Rule (List Param × Bool) := do
  if !(← test ',') then
    let code ← peek
    if code ≠ ')'.toNat then reject c (.expectedCommaOrParen code)
  return consParam ty found (← params c n (found.toList ++ seen))

def implement (n : Nat) (c : Checkpoint) (f : Function) : Rule Unit := do
  register f c
  update fun r => { r with scope := (defineParams r.scope f.params).enterFrame }
  let body ← orReject (block n { returns := f.returns }) c (.invalid "function body")
  exitFunction
  update fun r => { r with scope := r.scope.implement f.name body }

end Cb.Rule
