import Cb.Text.Bytes

/-! Binary operators. Every operator has a code whose tens are its tier: a higher tier binds tighter.
Codes without an operator are kept, since trees can be built from any code. -/

namespace Cb

inductive Operator where
  | assign
  | less | greater | greaterEqual | lessEqual | notEqual | equal
  | shiftLeft | shiftRight | or | and | xor
  | add | subtract
  | multiply | divide | modulo
  | unknown (code : Int)
deriving DecidableEq, Repr

namespace Operator

def all : List Operator :=
  [.assign, .less, .greater, .greaterEqual, .lessEqual, .notEqual, .equal, .shiftLeft, .shiftRight,
   .or, .and, .xor, .add, .subtract, .multiply, .divide, .modulo]

def code : Operator → Int
  | .assign => 10
  | .less => 20
  | .greater => 21
  | .greaterEqual => 22
  | .lessEqual => 23
  | .notEqual => 24
  | .equal => 25
  | .shiftLeft => 40
  | .shiftRight => 41
  | .or => 42
  | .and => 43
  | .xor => 44
  | .add => 60
  | .subtract => 61
  | .multiply => 80
  | .divide => 81
  | .modulo => 82
  | .unknown code => code

def ofCode (code : Int) : Operator :=
  (all.find? (·.code = code)).getD (.unknown code)

def tier (op : Operator) : Int := op.code.tdiv 10

def symbol : Operator → Bytes
  | .assign => "="
  | .less => "<"
  | .greater => ">"
  | .greaterEqual => ">="
  | .lessEqual => "<="
  | .notEqual => "!="
  | .equal => "=="
  | .shiftLeft => "<<"
  | .shiftRight => ">>"
  | .or => "|"
  | .and => "&"
  | .xor => "^"
  | .add => "+"
  | .subtract => "-"
  | .multiply => "*"
  | .divide => "/"
  | .modulo => "%"
  | .unknown _ => "unknown_op"

def name : Operator → Bytes
  | .assign => "assign"
  | .less => "less"
  | .greater => "greater"
  | .greaterEqual => "greaterequal"
  | .lessEqual => "lessequal"
  | .notEqual => "notequal"
  | .equal => "equal"
  | .shiftLeft => "shiftleft"
  | .shiftRight => "shiftright"
  | .or => "or"
  | .and => "and"
  | .xor => "xor"
  | .add => "add"
  | .subtract => "subtract"
  | .multiply => "multiply"
  | .divide => "divide"
  | .modulo => "modulo"
  | .unknown _ => "unknown"

def isComparison (op : Operator) : Bool := op.tier = 2

/-- Must the operator on top of the stack be applied before `incoming` is pushed? Two assignments
never, so that they group to the right. -/
def reducesBefore (top incoming : Operator) : Bool :=
  !(top = .assign && incoming = .assign) && incoming.tier ≤ top.tier

end Operator

end Cb
