import Cb.Program

/-! What is visible at a point of the source: type names, functions, and the stack of variables. The
stack has the shape of the frame at run time: parameters, return address, saved base pointer, locals.
Marks separate functions and blocks. -/

namespace Cb

inductive Entry where
  | slot (name : Bytes) (ty : Ty) (size : Int)
  | functionMark
  | blockMark
deriving DecidableEq, Repr

/-- The slot that holds the caller's base pointer. Offsets are counted from it. -/
def savedBaseName : Bytes := "__previous_bp"

def returnAddressName : Bytes := "__return_address"

namespace Entry

def size : Entry → Int
  | .slot _ _ size => size
  | .functionMark | .blockMark => 0

def isSavedBase : Entry → Bool
  | .slot name _ _ => name = savedBaseName
  | .functionMark | .blockMark => false

def isFunctionMark : Entry → Bool
  | .functionMark => true
  | _ => false

end Entry

abbrev Stack := List Entry

namespace Stack

def bytes (entries : Stack) : Int := entries.foldr (fun entry rest => entry.size + rest) 0

def belowBase? : Stack → Option Int
  | [] => none
  | entry :: rest =>
    if entry.isFunctionMark then none
    else if entry.isSavedBase then some 0
    else (belowBase? rest).map (· + entry.size)

def toBase? : List Entry → Option Int
  | [] => none
  | entry :: rest => if entry.isSavedBase then some entry.size else (toBase? rest).map (· + entry.size)

/-- The offset from the base pointer of the newest entry of `here`, when the entries `above`, the
older ones first, were pushed after it. Locals lie below the base, parameters above it. -/
def offset (above : List Entry) (here : Stack) : Int :=
  match belowBase? here with
  | some n => -n
  | none => (toBase? above).getD 0

/-- Drops everything down to and including a mark, and counts the bytes dropped. Without such a mark
nothing remains. -/
def exit (mark : Entry) : Stack → Int × Stack
  | [] => (0, [])
  | entry :: rest =>
    if entry = mark then (0, rest)
    else
      let (n, remaining) := exit mark rest
      (n + entry.size, remaining)

def bytesSince (entries : Stack) (height : Nat) : Int := bytes (entries.take (entries.length - height))

def localBytes : Stack → Int
  | [] => 0
  | entry :: rest =>
    if entry.isSavedBase || entry.isFunctionMark then 0 else entry.size + localBytes rest

end Stack

structure Variable where
  name : Bytes
  ty : Ty
  size : Int
  offset : Int
deriving DecidableEq, Repr

namespace Stack

def findFrom (name : Bytes) (above : List Entry) : Stack → Option Variable
  | [] => none
  | entry :: rest =>
    match entry with
    | .functionMark => none
    | .blockMark => findFrom name (entry :: above) rest
    | .slot slotName ty size =>
      if slotName ≠ [] && slotName = name then some ⟨slotName, ty, size, offset above (entry :: rest)⟩
      else findFrom name (entry :: above) rest

end Stack

inductive RegisterError where
  | alreadyImplemented (name : Bytes)
  | paramsDiffer (name : Bytes)
  | returnDiffers (name : Bytes)
deriving DecidableEq, Repr

def RegisterError.message : RegisterError → Bytes
  | .alreadyImplemented name => "function " ++ name ++ " is already implemented"
  | .paramsDiffer name =>
    "function's " ++ name ++ " implementation parameters do not match parameters of its declaration"
  | .returnDiffers name =>
    "function's " ++ name ++ " implementation return type does not match return type of its declaration"

structure Scope where
  types : List Ty := Ty.builtins
  functions : List Function := []
  stack : Stack := []
deriving Repr

structure ScopeSizes where
  types : Nat
  functions : Nat
  stack : Nat
deriving DecidableEq, Repr

namespace Scope

def sizes (scope : Scope) : ScopeSizes :=
  ⟨scope.types.length, scope.functions.length, scope.stack.length⟩

def truncate (scope : Scope) (sizes : ScopeSizes) : Scope where
  types := scope.types.take sizes.types
  functions := scope.functions.take sizes.functions
  stack := scope.stack.drop (scope.stack.length - sizes.stack)

def findType? (scope : Scope) (name : Bytes) : Option Ty :=
  scope.types.find? (·.base.name = lower name)

def findFunction? (scope : Scope) (name : Bytes) : Option Function :=
  scope.functions.find? (·.name = lower name)

/-- Adds a function to the table. A matching declaration is replaced where it stands. -/
def register (f : Function) : List Function → Except RegisterError (List Function)
  | [] => .ok [f]
  | known :: rest =>
    if known.name ≠ f.name then (register f rest).map (known :: ·)
    else if known.isImplemented then .error (.alreadyImplemented f.name)
    else if known.paramTypes ≠ f.paramTypes then .error (.paramsDiffer f.name)
    else if known.returns ≠ f.returns then .error (.returnDiffers f.name)
    else .ok (f :: rest)

def addFunction (scope : Scope) (f : Function) : Except RegisterError Scope :=
  (register f scope.functions).map fun functions => { scope with functions }

def implement (scope : Scope) (name : Bytes) (body : Stmt) : Scope :=
  { scope with functions := scope.functions.map fun f =>
      if f.name = name then { f with body := some body, calls := (Node.stmt body).callNames } else f }

def push (scope : Scope) (entry : Entry) : Scope := { scope with stack := entry :: scope.stack }

def enterFunction (scope : Scope) : Scope := scope.push .functionMark

def enterBlock (scope : Scope) : Scope := scope.push .blockMark

def enterFrame (scope : Scope) : Scope :=
  (scope.push (.slot returnAddressName .int 2)).push (.slot savedBaseName .int 2)

def exit (scope : Scope) (mark : Entry) : Int × Scope :=
  let (bytes, stack) := scope.stack.exit mark
  (bytes, { scope with stack })

def exitFunction (scope : Scope) : Int × Scope := scope.exit .functionMark

def exitBlock (scope : Scope) : Int × Scope := scope.exit .blockMark

def define (scope : Scope) (name : Bytes) (ty : Ty) (size : Int) : Int × Scope :=
  let extended := scope.push (.slot (lower name) ty (size + size.tmod 2))
  (Stack.offset [] extended.stack, extended)

def defineVariable (scope : Scope) (name : Bytes) (ty : Ty) : Int × Scope := scope.define name ty ty.size

def findVariable? (scope : Scope) (name : Bytes) : Option Variable :=
  Stack.findFrom (lower name) [] scope.stack

def height (scope : Scope) : Nat := scope.stack.length

def bytesSince (scope : Scope) (height : Nat) : Int := scope.stack.bytesSince height

def localBytes (scope : Scope) : Int := scope.stack.localBytes

end Scope

end Cb
