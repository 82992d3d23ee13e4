import Cb.Text.Bytes

/-! Operands of the 16-bit target. -/

namespace Cb

inductive Width where
  | byte
  | word
deriving DecidableEq, Repr

def Width.ofSize (size : Nat) : Width := if size = 1 then .byte else .word

inductive Letter where
  | a
  | b
  | c
  | d
deriving DecidableEq, Repr

inductive Part where
  | low
  | high
  | full
deriving DecidableEq, Repr

inductive Register where
  | general (letter : Letter) (part : Part)
  | base
  | stack
deriving DecidableEq, Repr

namespace Register

def ax : Register := .general .a .full

def al : Register := .general .a .low

def ah : Register := .general .a .high

def bx : Register := .general .b .full

def dx : Register := .general .d .full

def sized (letter : Letter) : Width → Register
  | .byte => .general letter .low
  | .word => .general letter .full

def withPart (part : Part) : Register → Register
  | .general letter _ => .general letter part
  | other => other

def text : Register → Bytes
  | .general letter part =>
    let first : Bytes := match letter with
      | .a => "a"
      | .b => "b"
      | .c => "c"
      | .d => "d"
    let second : Bytes := match part with
      | .low => "l"
      | .high => "h"
      | .full => "x"
    first ++ second
  | .base => "bp"
  | .stack => "sp"

end Register

inductive DataBase where
  | bx
  | address (value : Int)
deriving DecidableEq, Repr

inductive Operand where
  /-- Nowhere: a comparison leaves its result in the flags, a void call leaves none. -/
  | none
  | immediate (value : Int)
  | frame (width : Width) (offset : Int)
  | data (width : Width) (base : DataBase) (displacement : Int)
  | register (r : Register)
deriving DecidableEq, Repr

inductive OperandKind where
  | none
  | immediate
  | stack
  | data
  | register
deriving DecidableEq, Repr

namespace OperandKind

def name : OperandKind → Bytes
  | .none => "none"
  | .immediate => "immediate"
  | .stack => "stack"
  | .data => "data"
  | .register => "register"

def isMemory (kind : OperandKind) : Bool := kind = .stack || kind = .data

def ofIndex (index : Int) : OperandKind :=
  if index = 1 then .immediate
  else if index = 2 then .stack
  else if index = 3 then .data
  else if index = 4 then .register
  else .none

end OperandKind

def Width.pointer : Width → Bytes
  | .byte => "byte ptr "
  | .word => "word ptr "

namespace Operand

def kind : Operand → OperandKind
  | .none => .none
  | .immediate _ => .immediate
  | .frame _ _ => .stack
  | .data _ _ _ => .data
  | .register _ => .register

def isMemory (o : Operand) : Bool := o.kind.isMemory

/-- Can its value be lost when something else is computed? -/
def isVolatile (o : Operand) : Bool := o.kind = .register || o.kind = .data

def displaced (plus minus : Bytes) (n : Int) : Bytes :=
  if n = 0 then [] else if n < 0 then minus ++ Bytes.ofInt (-n) else plus ++ Bytes.ofInt n

def text : Operand → Bytes
  | .none => []
  | .immediate value => Bytes.ofInt value
  | .frame width offset => width.pointer ++ "[bp" ++ displaced " + " " - " offset ++ "]"
  | .data width base displacement =>
    let start : Bytes := match base with
      | .bx => "bx"
      | .address value => Bytes.ofInt value
    width.pointer ++ "ds:[" ++ start ++ displaced "+" "-" displacement ++ "]"
  | .register r => r.text

def lowByte : Operand → Operand
  | .frame _ offset => .frame .byte offset
  | .data _ base displacement => .data .byte base displacement
  | .register r => .register (r.withPart .low)
  | other => other

end Operand

end Cb
