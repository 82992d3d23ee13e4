import Cb.Text.LowerCase

/-! Types: a base and a pointer depth, with the sizes and cast rules of the 16-bit target. -/

namespace Cb

inductive Base where
  | int
  | byte
  | void
  | flags
  /-- Any other name. No value has such a type, but trees can mention one. -/
  | other (name : Bytes)
deriving DecidableEq, Repr

namespace Base

def name : Base → Bytes
  | .int => "int"
  | .byte => "byte"
  | .void => "void"
  | .flags => "flags"
  | .other name => name

def ofName (name : Bytes) : Base :=
  let name := lower name
  if name = "int" then .int
  else if name = "byte" then .byte
  else if name = "void" then .void
  else if name = "flags" then .flags
  else .other name

end Base

structure Ty where
  base : Base
  depth : Nat := 0
deriving DecidableEq, Repr

namespace Ty

def int : Ty := ⟨.int, 0⟩

def byte : Ty := ⟨.byte, 0⟩

def void : Ty := ⟨.void, 0⟩

def flags : Ty := ⟨.flags, 0⟩

def voidPointer : Ty := ⟨.void, 1⟩

def builtins : List Ty := [int, byte, void]

def text (t : Ty) : Bytes := t.base.name ++ List.replicate t.depth 42

def isPointer (t : Ty) : Bool := 0 < t.depth

def isArithmetic (t : Ty) : Bool := t = int || t = byte

def size (t : Ty) : Nat := if t = byte then 1 else 2

def paddedSize (t : Ty) : Nat := t.size + t.size % 2

def bits (t : Ty) : Nat := t.size * 8

/-- The value that remains of a number when it is stored in this type. -/
def wrap (t : Ty) (value : Int) : Int := value % Nat.pow 2 t.bits

def deref (t : Ty) : Ty := ⟨t.base, t.depth - 1⟩

def ref (t : Ty) : Ty := ⟨t.base, t.depth + 1⟩

/-- May a value of type `t` be cast explicitly? Pointers cast among each other and to and from
two-byte values, numbers cast among each other. -/
def canCast (t target : Ty) : Bool :=
  t = target
    || (t.isPointer && target.isPointer)
    || (t.isPointer && target.size = 2 && target != flags && target != void)
    || (target.isPointer && t.size = 2 && t != flags && t != void)
    || (t.isArithmetic && target.isArithmetic)

/-- Does a value of type `t` convert without a cast? Bytes widen, and `void*` fits every pointer. -/
def convertsTo (t target : Ty) : Bool :=
  t.canCast target &&
    (t = target
      || (t.isPointer && target.isPointer && (t = voidPointer || target = voidPointer))
      || (t = byte && target = int))

def promote (a b : Ty) : Ty := if a = int || b = int then int else byte

end Ty

end Cb
