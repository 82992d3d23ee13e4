import Cb.Operator
import Cb.Position
import Cb.Ty

/-! Expression trees. Every node carries what the reader found out about it: its type, whether it may
be assigned to, its value when it is constant, and whether computing it needs registers. -/

namespace Cb

structure Info where
  pos : Position
  ty : Ty
  writable : Bool := false
  constant : Bool := false
  value : Int := 0
  usesRegisters : Bool := false
deriving DecidableEq, Repr

inductive Expr where
  | literal (info : Info)
  | var (info : Info) (name : Bytes) (offset : Int)
  | deref (info : Info) (address : Expr) (displacement : Int)
  | step (info : Info) (target : Expr) (down : Bool)
  | addressOf (info : Info) (target : Expr)
  | cast (info : Info) (operand : Expr)
  | call (info : Info) (name : Bytes) (arguments : List Expr)
  | binary (info : Info) (op : Operator) (left right : Expr)
  /-- A node without content. The reader builds none. -/
  | hollow (info : Info)
deriving Repr

namespace Expr

def info : Expr → Info
  | .literal info => info
  | .var info _ _ => info
  | .deref info _ _ => info
  | .step info _ _ => info
  | .addressOf info _ => info
  | .cast info _ => info
  | .call info _ _ => info
  | .binary info _ _ _ => info
  | .hollow info => info

def pos (e : Expr) : Position := e.info.pos

def ty (e : Expr) : Ty := e.info.ty

def isConstant (e : Expr) : Bool := e.info.constant

def value (e : Expr) : Int := e.info.value

def isWritable (e : Expr) : Bool := e.info.writable

def usesRegisters (e : Expr) : Bool := e.info.usesRegisters

def children : Expr → List Expr
  | .literal _ | .var _ _ _ | .hollow _ => []
  | .deref _ address _ => [address]
  | .step _ target _ => [target]
  | .addressOf _ target => [target]
  | .cast _ operand => [operand]
  | .call _ _ arguments => arguments
  | .binary _ _ left right => [left, right]

mutual

def text : Expr → Bytes
  | .literal info => if info.ty.isPointer && info.value = 0 then "NULL" else Bytes.ofInt info.value
  | .var _ name _ => name
  | .deref _ address displacement =>
    if displacement = 0 then "*" ++ address.text
    else "*(" ++ address.text ++ Bytes.signed displacement ++ ")"
  | .step _ target down => (if down then utf8 "--" else utf8 "++") ++ target.text
  | .addressOf _ target => "&" ++ target.text
  | .cast info operand => "(" ++ info.ty.text ++ ")" ++ operand.text
  | .call _ name arguments => name ++ "(" ++ Bytes.join ", " (texts arguments) ++ ")"
  | .binary _ op left right => "(" ++ left.text ++ " " ++ op.symbol ++ " " ++ right.text ++ ")"
  | .hollow _ => "<unknown>"
termination_by structural e => e

def texts : List Expr → List Bytes
  | [] => []
  | e :: rest => e.text :: texts rest
termination_by structural es => es

end

mutual

def count : Expr → Nat
  | .literal _ | .var _ _ _ | .hollow _ => 1
  | .deref _ address _ => address.count + 1
  | .step _ target _ => target.count + 1
  | .addressOf _ target => target.count + 1
  | .cast _ operand => operand.count + 1
  | .call _ _ arguments => countAll arguments + 1
  | .binary _ _ left right => left.count + right.count + 1
termination_by structural e => e

def countAll : List Expr → Nat
  | [] => 0
  | e :: rest => e.count + countAll rest
termination_by structural es => es

end

mutual

def calls : Expr → List Bytes
  | .literal _ | .var _ _ _ | .hollow _ => []
  | .deref _ address _ => address.calls
  | .step _ target _ => target.calls
  | .addressOf _ target => target.calls
  | .cast _ operand => operand.calls
  | .call _ name arguments => name :: callsAll arguments
  | .binary _ _ left right => left.calls ++ right.calls
termination_by structural e => e

def callsAll : List Expr → List Bytes
  | [] => []
  | e :: rest => e.calls ++ callsAll rest
termination_by structural es => es

end

end Expr

end Cb
