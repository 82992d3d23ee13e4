import Cb.Asm.Instr
import Cb.Expr.Basic

/-! Code for expressions. There is no register allocation: every expression leaves its value in an
operand, and its parent saves that operand on the stack where later code could overwrite it. -/

namespace Cb

/-- A tree that cannot be lowered. Trees read from source text never lead to one. -/
inductive LowerError where
  | unexpectedExpression (text : Bytes)
  | unexpectedStatement (text : Bytes)
  | unexpectedOperator (op : Operator)
  | operandOf (kind : OperandKind) (op : Operator)
  | shiftCount
  | derefKind (kind : OperandKind)
  | widenKind (kind : OperandKind)
  | pushKind (kind : OperandKind)
  | address (text : Bytes)
  | notComparison (text : Bytes)
  | outsideLoop
deriving DecidableEq, Repr

def LowerError.message : LowerError → Bytes
  | .unexpectedExpression text => "codegen: unexpected expression " ++ text
  | .unexpectedStatement text => "codegen: unexpected statement " ++ text
  | .unexpectedOperator op => "codegen: unexpected operator " ++ op.symbol
  | .operandOf kind op => "codegen: can't use " ++ kind.name ++ " operand of " ++ op.name
  | .shiftCount => "codegen: shift count is not constant"
  | .derefKind kind => "codegen: can't dereference " ++ kind.name ++ " storage"
  | .widenKind kind => "codegen: can't widen " ++ kind.name ++ " storage"
  | .pushKind kind => "codegen: can't push " ++ kind.name ++ " storage"
  | .address text => "codegen: can't take the address of " ++ text
  | .notComparison text => "codegen: condition " ++ text ++ " is not a comparison"
  | .outsideLoop => "codegen: jump out of a loop that is not there"

structure Lowered where
  code : List Instr := []
  result : Operand := .none
  error : Option LowerError := none
deriving DecidableEq, Repr

namespace Lower

def register (r : Register) : Operand := .register r

def accumulator (w : Width) : Register := .sized .a w

def counter (w : Width) : Register := .sized .c w

def partner (w : Width) (o : Operand) : Register :=
  if o = register (accumulator w) then .sized .b w else accumulator w

def save (w : Width) (o : Operand) : List Instr :=
  match w with
  | .word => [.push o]
  | .byte =>
    if o.kind = .data then [.mov (register .al) o, .pushByte (register .al)] else [.pushByte o]

def load (w : Width) (o : Operand) : Instr :=
  match w with
  | .word => .pop o
  | .byte => .popByte o

/-- Both operands of an operation, with the code that computes them. The left one is on the stack
when it was `saved`. -/
structure Operands where
  code : List Instr
  left : Operand
  right : Operand
  saved : Bool
  width : Width
  error : Option LowerError

def operands (left right : Lowered) (width : Width) (rightUsesRegisters : Bool) : Operands :=
  let saved := left.result.isVolatile && rightUsesRegisters
  { code := left.code ++ (if saved then save width left.result else []) ++ right.code
    left := left.result, right := right.result, saved, width, error := left.error <|> right.error }

def isSwappable (op : Operator) : Bool := op = .add || op = .and || op = .or || op = .xor

def arithmetic? : Operator → Option Arithmetic
  | .add => some .add
  | .subtract => some .sub
  | .and => some .and
  | .or => some .or
  | .xor => some .xor
  | _ => none

def fetchLeft (o : Operands) (target : Register) : List Instr × Operand :=
  if o.saved then ([load o.width (register target)], register target)
  else if o.left.kind = .register then ([], o.left)
  else ([.mov (register target) o.left], register target)

def twoOperand (op : Operator) (instr : Arithmetic) (o : Operands) : Lowered :=
  let finish (target : Register) : Lowered :=
    let (code, left) := fetchLeft o target
    { code := o.code ++ code ++ [.arithmetic instr left o.right], result := left, error := o.error }
  match o.right.kind with
  | .none => { code := o.code, error := o.error <|> some (.operandOf o.right.kind op) }
  | .register =>
    if !o.saved && o.left.kind ≠ .register && isSwappable op then
      { code := o.code ++ [.arithmetic instr o.right o.left], result := o.right, error := o.error }
    else finish (partner o.width o.right)
  | _ => finish (accumulator o.width)

def comparison (op : Operator) (o : Operands) : Lowered :=
  { twoOperand op .cmp o with result := .none }

def shift (op : Operator) (left right : Lowered) (w : Width) : Lowered :=
  let code := left.code ++ right.code
  let error := left.error <|> right.error
  if right.result.kind ≠ .immediate then { code, error := error <|> some .shiftCount }
  else
    let target := register (accumulator w)
    let move := if left.result = target then [] else [Instr.mov target left.result]
    let instr := if op = .shiftLeft then Instr.shiftLeft target right.result else .shiftRight target right.result
    { code := code ++ move ++ [instr], result := target, error }

def multiplier (w : Width) (right : Operand) : List Instr × Operand :=
  if right.isMemory then ([], right)
  else
    let target := register (counter w)
    (if right = target then [] else [.mov target right], target)

def multiplication (op : Operator) (o : Operands) : Lowered :=
  if o.right = .none then { code := o.code, error := o.error <|> some (.operandOf .none op) }
  else
    let target := register (accumulator o.width)
    let (move, source) := multiplier o.width o.right
    let fetch := if o.saved then [load o.width target]
      else if o.left = target then []
      else [.mov target o.left]
    let rest := register (match o.width with | .byte => .ah | .word => .dx)
    let code := o.code ++ move ++ fetch
    if op = .multiply then { code := code ++ [.mul source], result := target, error := o.error }
    else
      { code := code ++ [.mov rest (.immediate 0), .div source]
        result := if op = .modulo then rest else target
        error := o.error }

def assignment (left right : Lowered) (w : Width) (leftUsesRegisters : Bool) : Lowered :=
  let saved := right.result.isVolatile && leftUsesRegisters
  let target := left.result
  let store : List Instr :=
    if saved then
      if w = .byte && target.kind ≠ .register then [.popByte (register .al), .mov target (register .al)]
      else [load w target]
    else if target.isMemory && right.result.isMemory then
      [.mov (register (accumulator w)) right.result, .mov target (register (accumulator w))]
    else [.mov target right.result]
  { code := right.code ++ (if saved then save w right.result else []) ++ left.code ++ store
    result := target, error := right.error <|> left.error }

def binary (op : Operator) (left right : Lowered) (w : Width) (leftUses rightUses : Bool) : Lowered :=
  if op = .assign then assignment left right w leftUses
  else if op.isComparison then comparison op (operands left right w rightUses)
  else if op = .shiftLeft || op = .shiftRight then shift op left right w
  else if op = .multiply || op = .divide || op = .modulo then
    multiplication op (operands left right w rightUses)
  else match arithmetic? op with
    | some instr => twoOperand op instr (operands left right w rightUses)
    | none => { error := some (.unexpectedOperator op) }

def dereference (address : Lowered) (size : Nat) (displacement : Int) : Lowered :=
  let w := Width.ofSize size
  let through (move : List Instr) : Lowered :=
    { address with code := address.code ++ move, result := .data w .bx displacement }
  match address.result with
  | .immediate value => { address with result := .data w (.address value) displacement }
  | .none => { address with result := .none, error := address.error <|> some (.derefKind .none) }
  | o => if o = register .bx then through [] else through [.mov (register .bx) o]

def increment (target : Lowered) (ty : Ty) (down : Bool) : Lowered :=
  let o := target.result
  let instr : Instr :=
    if !ty.isPointer || ty.deref.size = 1 then (if down then .dec o else .inc o)
    else .arithmetic (if down then .sub else .add) o (.immediate ty.deref.size)
  { target with code := target.code ++ [instr] }

def moveAddress (n : Int) : List Instr :=
  if n = 0 then []
  else if n < 0 then [.arithmetic .sub (register .dx) (.immediate (-n))]
  else [.arithmetic .add (register .dx) (.immediate n)]

def frameAddress (offset : Int) : Lowered :=
  { code := .mov (register .dx) (register .base) :: moveAddress offset, result := register .dx }

def dataAddress (address : Lowered) (displacement : Int) : Lowered :=
  let move := if address.result = register .dx then [] else [Instr.mov (register .dx) address.result]
  { address with code := address.code ++ move ++ moveAddress displacement, result := register .dx }

def conversion (operand : Lowered) (source target : Nat) : Lowered :=
  let widened (code : List Instr) (result : Register) : Lowered :=
    { operand with code := operand.code ++ code, result := register result }
  if source = target then operand
  else if target < source then { operand with result := operand.result.lowByte }
  else match operand.result with
    | .frame _ _ | .data _ _ _ =>
      widened [.mov (register .al) operand.result, .mov (register .ah) (.immediate 0)] .ax
    | .register r =>
      if r = .ah then widened [.mov (register .al) (register .ah), .mov (register .ah) (.immediate 0)] .ax
      else widened [.mov (register (r.withPart .high)) (.immediate 0)] (r.withPart .full)
    | o => { operand with result := .none, error := operand.error <|> some (.widenKind o.kind) }

def pushSlot (value : Lowered) (size : Nat) : Lowered :=
  let after (code : List Instr) : Lowered := { value with code := value.code ++ code, result := .none }
  match value.result with
  | .frame _ _ | .data _ _ _ =>
    after [.mov (register (accumulator (.ofSize size))) value.result, .push (register .ax)]
  | .register r =>
    if r = .ah then after [.mov (register .al) (register .ah), .push (register .ax)]
    else after [.push (register (r.withPart .full))]
  | .immediate n => after [.push (.immediate n)]
  | .none => { value with error := value.error <|> some (.pushKind .none) }

def callResult (ty : Ty) : Operand :=
  if ty.size = 1 then register .al else if ty = .void then .none else register .ax

mutual

def expression (e : Expr) : Lowered :=
  if e.isConstant then { result := .immediate (e.ty.wrap e.value) }
  else match e with
    | .var info _ offset => { result := .frame (.ofSize info.ty.size) offset }
    | .deref info address displacement => dereference (expression address) info.ty.size displacement
    | .step _ target down => increment (expression target) target.ty down
    | .addressOf _ (.var _ _ offset) => frameAddress offset
    | .addressOf _ (.deref _ address displacement) =>
      if address.isConstant then { result := .immediate (Ty.int.wrap (address.value + displacement)) }
      else dataAddress (expression address) displacement
    | .addressOf _ target => { error := some (.address target.text) }
    | .cast info operand => conversion (expression operand) operand.ty.size info.ty.size
    | .call info name given =>
      let pushed := arguments given
      { pushed with code := pushed.code ++ [.call name], result := callResult info.ty }
    | .binary _ op left right =>
      binary op (expression left) (expression right) (.ofSize left.ty.size) left.usesRegisters
        right.usesRegisters
    | .literal _ | .hollow _ => { error := some (.unexpectedExpression e.text) }
termination_by structural e

def arguments (given : List Expr) : Lowered :=
  match given with
  | [] => {}
  | e :: rest =>
    let first := pushSlot (expression e) e.ty.size
    let others := arguments rest
    { code := first.code ++ others.code, error := first.error <|> others.error }
termination_by structural given

end

end Lower

end Cb
