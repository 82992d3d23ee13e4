import Cb.Expr.Basic
import Cb.Signature

/-! Checked construction of expression trees. Operands are checked and converted, and operations on
constants are carried out at once, so that every tree built here is well typed. -/

namespace Cb

inductive BuildError where
  | shiftCount
  | notWritable
  | divisionByZero
  | argumentCount
  | operandTypes (op : Operator) (left right : Ty)
  | assignTypes (left right : Ty)
  | constants (op : Operator)
  | castTypes (source target : Ty)
  | conversionTypes (source target : Ty)
  | derefType (ty : Ty)
  | derefVoid (ty : Ty)
  | indexedType (ty : Ty)
  | indexType (ty : Ty)
  | stepTarget
  | stepType (ty : Ty)
  | address (text : Bytes)
deriving DecidableEq, Repr

def BuildError.message : BuildError → Bytes
  | .shiftCount => "second operand of shift operation must be constant"
  | .notWritable => "cannot assign to a non-writable expression"
  | .divisionByZero => "division by zero in constant expression"
  | .argumentCount => "mismatched call parameter count"
  | .operandTypes op left right => "can't " ++ op.name ++ " types " ++ left.text ++ " and " ++ right.text
  | .assignTypes left right => "can't assign " ++ left.text ++ " and " ++ right.text
  | .constants op => "can't " ++ op.name ++ " constants"
  | .castTypes source target => "can't cast " ++ source.text ++ " to " ++ target.text
  | .conversionTypes source target => "can't implicitly cast " ++ source.text ++ " to " ++ target.text
  | .derefType ty => "can't dereference non-pointer type " ++ ty.text
  | .derefVoid ty => "can't dereference " ++ ty.text
  | .indexedType ty => "can't index non-pointer type " ++ ty.text
  | .indexType ty => "can't index with type " ++ ty.text
  | .stepTarget => "can't increment a non-writable expression"
  | .stepType ty => "can't increment type " ++ ty.text
  | .address text => "can't take the address of " ++ text

inductive Scaling where
  | multiply
  | shift
deriving DecidableEq, Repr

namespace Build

def literal (pos : Position) (value : Int) (ty : Ty) : Expr :=
  .literal { pos, ty, constant := true, value := ty.wrap value }

def number (pos : Position) (value : Int) : Expr :=
  if 0 ≤ value && value < 256 then literal pos value .byte else literal pos value .int

def null (pos : Position) : Expr := literal pos 0 .voidPointer

def var (pos : Position) (name : Bytes) (ty : Ty) (offset : Int) : Expr :=
  .var { pos, ty, writable := true } name offset

def operation (pos : Position) (op : Operator) (left right : Expr) (ty : Ty) : Expr :=
  .binary { pos, ty, usesRegisters := true } op left right

/-- A conversion that the caller has checked. Constants are converted at once. -/
def convert (e : Expr) (target : Ty) : Expr :=
  if e.ty = target then e
  else if e.isConstant then literal e.pos e.value target
  else .cast { pos := e.pos, ty := target, usesRegisters := e.usesRegisters || e.ty.size < target.size } e

def cast (e : Expr) (target : Ty) : Except BuildError Expr :=
  if e.ty.canCast target then .ok (convert e target) else .error (.castTypes e.ty target)

def implicit (e : Expr) (target : Ty) : Except BuildError Expr :=
  if e.ty.convertsTo target then .ok (convert e target) else .error (.conversionTypes e.ty target)

def assign (pos : Position) (left right : Expr) : Except BuildError Expr :=
  if !left.isWritable then .error .notWritable
  else if left.ty = right.ty then .ok (operation pos .assign left right left.ty)
  else if right.ty.convertsTo left.ty then
    .ok (operation pos .assign left (convert right left.ty) left.ty)
  else .error (.assignTypes left.ty right.ty)

/-- No type is wider than 16 bits, so nothing remains of a value shifted further left. -/
def shiftValue (op : Operator) (value : Int) (count : Nat) : Int :=
  if op = .shiftRight then value >>> count
  else if 16 ≤ count then 0
  else value * Nat.pow 2 count

def shift (pos : Position) (op : Operator) (left right : Expr) : Except BuildError Expr :=
  if !right.isConstant then .error .shiftCount
  else if !left.ty.isArithmetic || !right.ty.isArithmetic then .error (.operandTypes op left.ty right.ty)
  else if left.isConstant then .ok (literal pos (shiftValue op left.value right.value.toNat) left.ty)
  else .ok (operation pos op left right left.ty)

def holds (op : Operator) (a b : Int) : Bool :=
  match op with
  | .less => a < b
  | .greater => b < a
  | .greaterEqual => b ≤ a
  | .lessEqual => a ≤ b
  | .notEqual => a != b
  | .equal => a == b
  | _ => false

def comparable (e : Expr) : Expr :=
  if !e.ty.isArithmetic && e.ty.canCast .int then convert e .int else e

def compare (pos : Position) (op : Operator) (left right : Expr) : Except BuildError Expr :=
  let left := comparable left
  let right := comparable right
  if !left.ty.isArithmetic || !right.ty.isArithmetic then .error (.operandTypes op left.ty right.ty)
  else
    let common := Ty.promote left.ty right.ty
    let left := convert left common
    let right := convert right common
    if left.isConstant && right.isConstant then
      .ok (literal pos (if holds op left.value right.value then 1 else 0) .flags)
    else .ok (operation pos op left right .flags)

/-- Bitwise operations work on the 16 low bits, as wide as any type. -/
def word (value : Int) : Nat := (value % 65536).toNat

def evaluate (op : Operator) (a b : Int) : Except BuildError Int :=
  match op with
  | .add => .ok (a + b)
  | .subtract => .ok (a - b)
  | .multiply => .ok (a * b)
  | .or => .ok (word a ||| word b : Nat)
  | .and => .ok (word a &&& word b : Nat)
  | .xor => .ok (word a ^^^ word b : Nat)
  | .divide => if b = 0 then .error .divisionByZero else .ok (a.tdiv b)
  | .modulo => if b = 0 then .error .divisionByZero else .ok (a.tmod b)
  | op => .error (.constants op)

def arithmetic (pos : Position) (op : Operator) (left right : Expr) : Except BuildError Expr :=
  if !left.ty.isArithmetic || !right.ty.isArithmetic then .error (.operandTypes op left.ty right.ty)
  else
    let common := Ty.promote left.ty right.ty
    let left := convert left common
    let right := convert right common
    if left.isConstant && right.isConstant then do
      let value ← evaluate op left.value right.value
      return literal pos value common
    else .ok (operation pos op left right common)

def scale (scaling : Scaling) (pos : Position) (index : Expr) (size : Nat) : Except BuildError Expr :=
  if size = 1 then .ok index
  else match scaling with
    | .shift => shift pos .shiftLeft index (literal pos (Nat.log2 size) .byte)
    | .multiply => arithmetic pos .multiply index (literal pos size .int)

def pointerArithmetic (scaling : Scaling) (pos : Position) (op : Operator) (pointer index : Expr) :
    Except BuildError Expr := do
  let offset ← scale scaling pos (convert index .int) pointer.ty.deref.size
  if pointer.isConstant && offset.isConstant then
    let value ← evaluate op pointer.value offset.value
    return literal pos value pointer.ty
  else return operation pos op pointer offset pointer.ty

def binary (scaling : Scaling) (pos : Position) (op : Operator) (left right : Expr) :
    Except BuildError Expr :=
  if op = .assign then assign pos left right
  else if op = .shiftLeft || op = .shiftRight then shift pos op left right
  else if op.isComparison then compare pos op left right
  else if op = .add && right.ty.isPointer && left.ty.isArithmetic then
    pointerArithmetic scaling pos op right left
  else if (op = .add || op = .subtract) && left.ty.isPointer && right.ty.isArithmetic then
    pointerArithmetic scaling pos op left right
  else arithmetic pos op left right

def splitAddress (address : Expr) : Expr × Int :=
  match address with
  | .binary _ op left right =>
    if right.isConstant && !left.isConstant then
      match op with
      | .add => (left, right.value)
      | .subtract => (left, -right.value)
      | _ => (address, 0)
    else (address, 0)
  | _ => (address, 0)

def deref (pos : Position) (address : Expr) : Except BuildError Expr :=
  if !address.ty.isPointer then .error (.derefType address.ty)
  else if address.ty.deref = .void then .error (.derefVoid address.ty)
  else
    let (base, displacement) := splitAddress address
    .ok (.deref { pos, ty := address.ty.deref, writable := true, usesRegisters := true } base displacement)

def index (scaling : Scaling) (pos : Position) (base index : Expr) : Except BuildError Expr := do
  if !base.ty.isPointer then throw (.indexedType base.ty)
  if !index.ty.isArithmetic then throw (.indexType index.ty)
  deref pos (← pointerArithmetic scaling pos .add base index)

def step (pos : Position) (target : Expr) (down : Bool) : Except BuildError Expr :=
  if !target.isWritable then .error .stepTarget
  else if !target.ty.isArithmetic && !target.ty.isPointer then .error (.stepType target.ty)
  else .ok (.step { pos, ty := target.ty, writable := true, usesRegisters := target.usesRegisters } target down)

def addressOf (pos : Position) (target : Expr) : Except BuildError Expr :=
  let node : Expr := .addressOf { pos, ty := target.ty.ref, usesRegisters := true } target
  match target with
  | .deref _ address displacement => if displacement = 0 then .ok address else .ok node
  | .var _ _ _ => .ok node
  | _ => .error (.address target.text)

def arguments : List Expr → List Param → Except BuildError (List Expr)
  | [], [] => .ok []
  | e :: rest, param :: params => do
    let converted ← implicit e param.ty
    let others ← arguments rest params
    return converted :: others
  | _, _ => .error .argumentCount

def call (pos : Position) (callee : Signature) (given : List Expr) : Except BuildError Expr :=
  if given.length != callee.params.length then .error .argumentCount
  else do
    let converted ← arguments given callee.params
    return .call { pos, ty := callee.returns, usesRegisters := true } callee.name converted

end Build

end Cb
