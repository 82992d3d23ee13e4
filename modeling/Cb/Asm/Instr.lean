import Cb.Asm.Operand
import Cb.Operator

/-! Instructions, labels and the lines of an assembly listing. -/

namespace Cb

inductive LabelRole where
  | trueBranch
  | falseBranch
  | endIf
  | whileCondition
  | whileBody
  | whileEnd
  | forCondition
  | forBody
  | forIncrement
  | forEnd
deriving DecidableEq, Repr

def LabelRole.text : LabelRole → Bytes
  | .trueBranch => "true_branch"
  | .falseBranch => "false_branch"
  | .endIf => "endif"
  | .whileCondition => "while_condition"
  | .whileBody => "while_body"
  | .whileEnd => "while_end"
  | .forCondition => "for_condition"
  | .forBody => "for_body"
  | .forIncrement => "for_increment"
  | .forEnd => "for_end"

/-- The labels of one construct share its number. -/
structure Label where
  number : Nat
  role : LabelRole
deriving DecidableEq, Repr

def Label.text (l : Label) : Bytes := "label_" ++ Bytes.ofNat l.number ++ "_" ++ l.role.text

inductive Arithmetic where
  | add
  | sub
  | and
  | or
  | xor
  | cmp
deriving DecidableEq, Repr

def Arithmetic.text : Arithmetic → Bytes
  | .add => "add"
  | .sub => "sub"
  | .and => "and"
  | .or => "or"
  | .xor => "xor"
  | .cmp => "cmp"

inductive Instr where
  | mov (target source : Operand)
  | arithmetic (op : Arithmetic) (target source : Operand)
  | shiftLeft (target count : Operand)
  | shiftRight (target count : Operand)
  | mul (source : Operand)
  | div (source : Operand)
  | inc (target : Operand)
  | dec (target : Operand)
  | push (source : Operand)
  | pop (target : Operand)
  /-- Macros of the listing's header: a single byte on the stack, and bytes dropped from it. -/
  | pushByte (source : Operand)
  | popByte (target : Operand)
  | popBytes (count : Int)
  | call (name : Bytes)
  | jump (target : Label)
  | jumpIf (comparison : Operator) (target : Label)
  | ret (bytes : Nat)
deriving DecidableEq, Repr

def jumpName : Operator → Bytes
  | .equal => "je"
  | .notEqual => "jne"
  | .greater => "ja"
  | .greaterEqual => "jae"
  | .less => "jb"
  | .lessEqual => "jbe"
  | _ => []

namespace Instr

def binary (name : Bytes) (target source : Operand) : Bytes :=
  name ++ " " ++ target.text ++ ", " ++ source.text

def unary (name : Bytes) (operand : Operand) : Bytes := name ++ " " ++ operand.text

def text : Instr → Bytes
  | .mov target source => binary "mov" target source
  | .arithmetic op target source => binary op.text target source
  | .shiftLeft target count => binary "shl" target count
  | .shiftRight target count => binary "shr" target count
  | .mul source => unary "mul" source
  | .div source => unary "div" source
  | .inc target => unary "inc" target
  | .dec target => unary "dec" target
  | .push source => unary "push" source
  | .pop target => unary "pop" target
  | .pushByte source => unary "push_byte" source
  | .popByte target => unary "pop_byte" target
  | .popBytes count => "pop_bytes " ++ Bytes.ofInt count
  | .call name => "call " ++ name
  | .jump target => "jmp " ++ target.text
  | .jumpIf comparison target => jumpName comparison ++ " " ++ target.text
  | .ret bytes => if bytes = 0 then "ret" else "ret " ++ Bytes.ofNat bytes

end Instr

end Cb
