import Cb.Grammar.Program
import Cb.Proofs.Typing
import Mathlib.Algebra.Ring.Int.Defs

/-! Which function bodies are accepted, said without a reader: the frame of a function, the locals in
scope at each statement, and the bytes that statements give back. -/

namespace Cb

structure Signature.IsSound (f : Signature) : Prop where
  params : ∀ ty ∈ f.paramTypes, ty.IsValue
  returns : f.returns.IsNamed

structure Frame where
  functions : List Function
  params : List Param
  returns : Ty
  functions_sound : ∀ f ∈ functions, f.toSignature.IsSound
  params_value : ∀ param ∈ params, param.ty.IsValue
  params_spelled : ∀ param ∈ params, param.name ≠ [] ∧ ∃ word, param.name = lower word
  params_distinct : (params.map Param.name).Nodup
  returns_named : returns.IsNamed

def Frame.scope (frame : Frame) : Scope :=
  (Rule.defineParams { functions := frame.functions, stack := [.functionMark] } frame.params).enterFrame

namespace Declaration

def slots (entry : Declaration) : Stack :=
  .slot (lower entry.name) entry.ty entry.ty.paddedSize ::
    match entry.array with
    | some storage => [.slot [] entry.ty.deref storage.reserved]
    | none => []

def bytes (entry : Declaration) : Int :=
  entry.ty.paddedSize + match entry.array with
    | some storage => storage.reserved
    | none => 0

end Declaration

def localsBytes (locals : List Declaration) : Int := (locals.map Declaration.bytes).sum

def Scope.grow (s : Scope) (locals : List Declaration) : Scope :=
  { s with stack := locals.flatMap Declaration.slots ++ s.stack }

namespace Stmt

def declares : Stmt → List Declaration
  | .declare _ entry => [entry]
  | _ => []

def declared : List Stmt → List Declaration
  | [] => []
  | s :: rest => declared rest ++ s.declares

end Stmt

def Frame.vocabulary (frame : Frame) (locals : List Declaration) : Vocabulary where
  names name ty offset :=
    ty.IsValue ∧ ∃ v, (frame.scope.grow locals).findVariable? name = some v ∧ v.ty = ty ∧ v.offset = offset
  callees callee := ∃ f ∈ frame.functions, callee = f.toSignature
  names_value found := found.1
  params_value := by
    rintro _ ⟨f, member, rfl⟩
    exact (frame.functions_sound f member).params
  returns_named := by
    rintro _ ⟨f, member, rfl⟩
    exact (frame.functions_sound f member).returns

def Frame.IsFresh (frame : Frame) (locals : List Declaration) (name : Bytes) : Prop :=
  name ≠ [] ∧ (∃ word, name = lower word) ∧ (frame.scope.grow locals).findVariable? name = none

inductive Declares (frame : Frame) (locals : List Declaration) : Declaration → Prop
  | scalar {name : Bytes} {ty : Ty} {init : Option Expr} (fresh : frame.IsFresh locals name) (isValue : ty.IsValue)
      (initial : ∀ e ∈ init, Built (frame.vocabulary locals) e ∧ e.ty = ty) :
      Declares frame locals { name, ty, init, offset := -(localsBytes locals + ty.paddedSize) }
  | array {name : Bytes} {element : Ty} {length reserved : Int} (fresh : frame.IsFresh locals name)
      (isValue : element.IsValue) (positive : 0 < length)
      (even : reserved = length * element.size + (length * element.size).tmod 2) :
      Declares frame locals
        { name, ty := element.ref, offset := -(localsBytes locals + reserved + element.ref.paddedSize)
          array := some ⟨length, reserved, -(localsBytes locals + reserved)⟩ }

inductive Locals (frame : Frame) : List Declaration → Prop
  | nil : Locals frame []
  | cons {locals : List Declaration} {entry : Declaration} (older : Locals frame locals)
      (newest : Declares frame locals entry) : Locals frame (entry :: locals)

def Frame.IsCondition (frame : Frame) (locals : List Declaration) (e : Expr) : Prop :=
  Built (frame.vocabulary locals) e ∧ e.ty = .flags

/-- The statements that a body may hold where `locals` are in scope. Inside a loop, `loop` are the
locals that were in scope at the start of its body. -/
inductive Accepts (frame : Frame) : Option (List Declaration) → List Declaration → List Stmt → Prop
  | nil {loop : Option (List Declaration)} {locals : List Declaration} : Accepts frame loop locals []
  | cons {loop : Option (List Declaration)} {locals : List Declaration} {s : Stmt} {rest : List Stmt}
      (first : Accepts frame loop locals [s]) (others : Accepts frame loop (s.declares ++ locals) rest) :
      Accepts frame loop locals (s :: rest)
  | breakLoop {outer locals : List Declaration} (pos : Position) :
      Accepts frame (some outer) locals [.breakLoop pos (localsBytes locals - localsBytes outer)]
  | continueLoop {outer locals : List Declaration} (pos : Position) :
      Accepts frame (some outer) locals [.continueLoop pos (localsBytes locals - localsBytes outer)]
  | assembly {loop : Option (List Declaration)} {locals : List Declaration} (pos : Position) (lines : List Bytes) :
      Accepts frame loop locals [.assembly pos lines]
  | branch {loop : Option (List Declaration)} {locals : List Declaration} (pos : Position) {e : Expr} {yes : Stmt}
      (condition : frame.IsCondition locals e) (closed : yes.declares = []) (body : Accepts frame loop locals [yes]) :
      Accepts frame loop locals [.branch pos (some e) yes none]
  | branchElse {loop : Option (List Declaration)} {locals : List Declaration} (pos : Position) {e : Expr}
      {yes no : Stmt} (condition : frame.IsCondition locals e) (closed : yes.declares = []) (closedElse : no.declares = [])
      (body : Accepts frame loop locals [yes]) (other : Accepts frame loop locals [no]) :
      Accepts frame loop locals [.branch pos (some e) yes (some no)]
  | whileLoop {loop : Option (List Declaration)} {locals : List Declaration} (pos : Position) {e : Expr} {body : Stmt}
      (condition : frame.IsCondition locals e) (closed : body.declares = [])
      (inner : Accepts frame (some locals) locals [body]) :
      Accepts frame loop locals [.whileLoop pos (some e) body]
  | forLoop {loop : Option (List Declaration)} {locals inside : List Declaration} (pos : Position) {init : Option Stmt}
      {condition post : Option Expr} {body : Stmt} (first : Accepts frame loop locals init.toList)
      (opened : inside = Stmt.declared init.toList ++ locals)
      (test : ∀ e ∈ condition, frame.IsCondition inside e) (next : ∀ e ∈ post, Built (frame.vocabulary inside) e)
      (closed : body.declares = []) (inner : Accepts frame (some inside) inside [body]) :
      Accepts frame loop locals
        [.forLoop pos init condition post body (localsBytes inside - localsBytes locals)]
  | ret {loop : Option (List Declaration)} {locals : List Declaration} (pos : Position) {value : Option Expr}
      (typed : match value with
        | some e => Built (frame.vocabulary locals) e ∧ e.ty = frame.returns ∧ frame.returns ≠ .void
        | none => frame.returns = .void) :
      Accepts frame loop locals [.ret pos value (localsBytes locals)]
  | declare {loop : Option (List Declaration)} {locals : List Declaration} (pos : Position) {entry : Declaration}
      (new : Declares frame locals entry) : Accepts frame loop locals [.declare pos entry]
  | block {loop : Option (List Declaration)} {locals : List Declaration} (pos : Position) {body : List Stmt}
      (inner : Accepts frame loop locals body) :
      Accepts frame loop locals [.block pos body (localsBytes (Stmt.declared body))]
  | evaluate {loop : Option (List Declaration)} {locals : List Declaration} (pos : Position) {e : Expr}
      (built : Built (frame.vocabulary locals) e) : Accepts frame loop locals [.evaluate pos e]

end Cb
