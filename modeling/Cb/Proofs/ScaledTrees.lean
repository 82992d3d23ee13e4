import Cb.Node
import Cb.Proofs.StoreCode
import Cb.Proofs.TreeMaps

/-! Trees whose indices are scaled by shifts, and the same trees with products in their place. Every checked
construction keeps the two in step, and they mean the same. -/

namespace Cb

variable {scaling : Scaling}

namespace Expr

def scalesIndex (op : Operator) (pointer : Expr) : Bool :=
  op.isAdditive && pointer.ty.isPointer && pointer.ty.deref.size = 2

def respelled : Scaling → Expr → Expr
  | .multiply, .binary info .shiftLeft index (.literal count) =>
    if count.value = 1 then .binary info .multiply index (Build.literal info.pos 2 .int)
    else .binary info .shiftLeft index (.literal count)
  | .shift, .binary info .multiply index (.literal count) =>
    if count.value = 2 then .binary info .shiftLeft index (Build.literal info.pos 1 .byte)
    else .binary info .multiply index (.literal count)
  | _, e => e

def rightOperand (scaling : Scaling) (op : Operator) (left right : Expr) : Expr :=
  if scalesIndex op left then right.respelled scaling else right

mutual

def rescaled (scaling : Scaling) : Expr → Expr
  | .literal info => .literal info
  | .var info name offset => .var info name offset
  | .deref info address displacement => .deref info (address.rescaled scaling) displacement
  | .step info target down => .step info (target.rescaled scaling) down
  | .addressOf info target => .addressOf info (target.rescaled scaling)
  | .cast info operand => .cast info (operand.rescaled scaling)
  | .call info name given => .call info name (rescaledAll scaling given)
  | .binary info op left right =>
    .binary info op (left.rescaled scaling) (rightOperand scaling op left (right.rescaled scaling))
  | .hollow info => .hollow info
termination_by structural e => e

def rescaledAll (scaling : Scaling) : List Expr → List Expr
  | [] => []
  | e :: rest => e.rescaled scaling :: rescaledAll scaling rest
termination_by structural es => es

end

theorem rescaledAll_eq (given : List Expr) : rescaledAll scaling given = given.map (rescaled scaling) := by
  induction given with
  | nil => rfl
  | cons e rest ih => rw [rescaledAll, ih, List.map_cons]

theorem info_respelled (e : Expr) : (e.respelled scaling).info = e.info := by
  rw [respelled.eq_def]
  split
  · split <;> rfl
  · split <;> rfl
  · rfl

theorem info_rescaled (e : Expr) : (e.rescaled scaling).info = e.info := by
  cases e <;> rfl

theorem rightOperand_keeps {γ : Sort*} {feature : Expr → γ} (same : ∀ e, feature (e.respelled scaling) = feature e)
    (op : Operator) (left right : Expr) : feature (rightOperand scaling op left right) = feature right := by
  rw [rightOperand]
  split
  · exact same right
  · rfl

@[simp] theorem respelled_isConstant (e : Expr) : (e.respelled scaling).isConstant = e.isConstant :=
  congrArg Info.constant e.info_respelled

@[simp] theorem respelled_value (e : Expr) : (e.respelled scaling).value = e.value :=
  congrArg Info.value e.info_respelled

theorem scalesIndex_of_isArithmetic (op : Operator) (number : left.ty.isArithmetic = true) :
    scalesIndex op left = false := by
  simp [scalesIndex, Ty.isPointer_of_isArithmetic number]

theorem rescaled_binary (info : Info) (right : Expr) (fixed : scalesIndex op left = false) :
    (Expr.binary info op left right).rescaled scaling = .binary info op (left.rescaled scaling) (right.rescaled scaling) := by
  simp only [rescaled, rightOperand, fixed, Bool.false_eq_true, ↓reduceIte]

theorem rescaled_keeps : Keeps id (rescaled scaling) where
  info := info_rescaled
  literal_eq _ := rfl
  deref_eq _ _ _ := rfl
  step_eq _ _ _ := rfl
  cast_eq _ _ := rfl
  call_eq info name given := congrArg (Expr.call info name) (rescaledAll_eq given)
  binary_eq info _ _ right kind := by
    rcases kind with rfl | number
    · exact rescaled_binary info right rfl
    · exact rescaled_binary info right (scalesIndex_of_isArithmetic _ number)
  splitAddress_eq address := by
    have fixed (e : Expr) : (e.rescaled scaling).isConstant = e.isConstant ∧ (e.rescaled scaling).value = e.value := by
      cases e <;> exact ⟨rfl, rfl⟩
    cases address with
    | binary info op left right =>
      simp only [rescaled, Build.splitAddress, rightOperand_keeps respelled_isConstant, rightOperand_keeps respelled_value,
        fixed]
      split
      · split <;> rfl
      · rfl
    | literal | var | deref | step | addressOf | cast | call | hollow => rfl

def isLocated : Expr → Bool
  | .var _ _ _ | .deref _ _ _ => true
  | _ => false

end Expr

def Scaling.double (pos : Position) (index : Expr) : Scaling → Expr
  | .shift => Build.operation pos .shiftLeft index (Build.literal pos 1 .byte) .int
  | .multiply => Build.operation pos .multiply index (Build.literal pos 2 .int) .int

namespace Build

variable {pos : Position} {op : Operator} {left right : Expr}

@[simp] theorem literal_rescaled (pos : Position) (value : Int) (ty : Ty) :
    (literal pos value ty).rescaled scaling = literal pos value ty := rfl

@[simp] theorem literal_respelled (pos : Position) (value : Int) (ty : Ty) :
    (literal pos value ty).respelled scaling = literal pos value ty := by
  cases scaling <;> rfl

@[simp] theorem number_rescaled (pos : Position) (value : Int) :
    (number pos value).rescaled scaling = number pos value := by
  rw [number]
  split <;> rfl

variable {index : Expr}

theorem scale_two (scaling : Scaling) (pos : Position) (isInt : index.ty = .int) :
    scale scaling pos index 2 =
      .ok (if index.isConstant then literal pos (index.value * 2) .int else scaling.double pos index) := by
  cases scaling with
  | shift =>
    have count : literal pos (Nat.log2 2 : Nat) .byte = literal pos 1 .byte := by
      rw [show Nat.log2 2 = 1 by decide]
      rfl
    have constant : (literal pos 1 .byte).isConstant = true := rfl
    have number : (literal pos 1 .byte).ty.isArithmetic = true := rfl
    have byOne : shiftValue .shiftLeft index.value (literal pos 1 .byte).value.toNat = index.value * 2 := rfl
    simp only [scale, shift, count, constant, number, byOne, isInt]
    cases index.isConstant <;> rfl
  | multiply =>
    have unchanged : convert index .int = index := by rw [convert, if_pos isInt]
    have common : Ty.promote .int (literal pos (2 : Nat) .int).ty = .int := rfl
    have number : (literal pos (2 : Nat) .int).ty.isArithmetic = true := rfl
    have kept : convert (literal pos (2 : Nat) .int) .int = literal pos 2 .int := rfl
    simp only [scale, arithmetic, isInt, common, number, kept, unchanged]
    cases index.isConstant <;> rfl

theorem scale_rescaled (other : Scaling) (pos : Position) (isInt : index.ty = .int) :
    scale scaling pos (index.rescaled scaling) 2 =
      (scale other pos index 2).map fun e => (e.rescaled scaling).respelled scaling := by
  rw [scale_two scaling pos (by rwa [Expr.rescaled_keeps.ty_eq]), scale_two other pos isInt,
    Expr.rescaled_keeps.isConstant_eq, Expr.rescaled_keeps.value_eq]
  cases index.isConstant with
  | true => simp only [↓reduceIte, Except.map, literal_rescaled, literal_respelled]
  | false => cases scaling <;> cases other <;> rfl

theorem pointerArithmetic_rescaled (other : Scaling) (pos : Position) (kind : op.isAdditive = true)
    (isPointer : pointer.ty.isPointer = true) (index : Expr) :
    pointerArithmetic scaling pos op (pointer.rescaled scaling) (index.rescaled scaling) =
      (pointerArithmetic other pos op pointer index).map (Expr.rescaled scaling) := by
  have isInt := convert_ty index .int
  have keeps : Expr.Keeps id (Expr.rescaled scaling) := Expr.rescaled_keeps
  simp only [pointerArithmetic, keeps.ty_eq, keeps.isConstant_eq, keeps.value_eq, ← keeps.convert]
  rcases Lower.size_cases pointer.ty.deref with one | two
  · have fixed : Expr.scalesIndex op pointer = false := by simp [Expr.scalesIndex, one]
    simp only [one, scale, ↓reduceIte, bind, Except.bind, pure, Except.pure, keeps.isConstant_eq, keeps.value_eq]
    split
    · cases evaluate op pointer.value (convert index .int).value <;> rfl
    · rw [Except.map, operation, operation, Expr.rescaled_binary _ _ fixed]
  · have scaled : Expr.scalesIndex op pointer = true := by simp [Expr.scalesIndex, kind, isPointer, two]
    rw [two, scale_rescaled other pos isInt]
    cases scale other pos (convert index .int) 2 with
    | error => rfl
    | ok offset =>
      simp only [Except.map, bind, Except.bind, pure, Except.pure, Expr.respelled_isConstant, keeps.isConstant_eq,
        Expr.respelled_value, keeps.value_eq]
      split
      · cases evaluate op pointer.value offset.value <;> rfl
      · simp only [operation, Expr.rescaled, Expr.rightOperand, scaled, ↓reduceIte]

theorem binary_rescaled (other : Scaling) (pos : Position) (op : Operator) (left right : Expr) :
    binary scaling pos op (left.rescaled scaling) (right.rescaled scaling) =
      (binary other pos op left right).map (Expr.rescaled scaling) :=
  Expr.rescaled_keeps.binary left right pos op fun _ index kind isPointer =>
    pointerArithmetic_rescaled other pos kind isPointer index

theorem index_rescaled (other : Scaling) (pos : Position) (base index : Expr) :
    Build.index scaling pos (base.rescaled scaling) (index.rescaled scaling) =
      (Build.index other pos base index).map (Expr.rescaled scaling) :=
  Expr.rescaled_keeps.index pos fun isPointer => pointerArithmetic_rescaled other pos (by decide) isPointer index

theorem deref_isLocated (built : deref pos address = .ok result) : result.isLocated = true := by
  simp only [deref] at built
  split at built
  · cases built
  · split at built
    · cases built
    · cases built
      rfl

theorem index_isLocated (built : Build.index scaling pos base index = .ok result) :
    result.isLocated = true := by
  obtain ⟨_, _, address, _, built⟩ := index_shape built
  exact deref_isLocated built

theorem addressOf_rescaled (pos : Position) (place : target.isLocated = true) :
    addressOf pos (target.rescaled scaling) = (addressOf pos target).map (Expr.rescaled scaling) := by
  cases target with
  | var => rfl
  | deref info address displacement =>
    simp only [Expr.rescaled, addressOf]
    split <;> rfl
  | literal | step | addressOf | cast | call | binary | hollow => cases place

theorem pointerArithmetic_of_isConstant (pos : Position) (op : Operator) (pointer : Expr)
    (constant : index.isConstant = true) (scaling other : Scaling) :
    pointerArithmetic scaling pos op pointer index = pointerArithmetic other pos op pointer index := by
  have isInt := convert_ty index .int
  simp only [pointerArithmetic]
  rcases Lower.size_cases pointer.ty.deref with one | two
  · simp only [one, scale, ↓reduceIte]
  · rw [two, scale_two scaling pos isInt, scale_two other pos isInt, convert_isConstant, constant]
    rfl

theorem index_of_isConstant (pos : Position) (base : Expr) (constant : index.isConstant = true)
    (scaling other : Scaling) : Build.index scaling pos base index = Build.index other pos base index := by
  rw [Build.index, Build.index, pointerArithmetic_of_isConstant pos .add base constant scaling other]

theorem pointerArithmetic_of_not_isConstant (scaling : Scaling) (pos : Position) (op : Operator)
    (two : pointer.ty.deref.size = 2) (varies : index.isConstant = false) :
    pointerArithmetic scaling pos op pointer index =
      .ok (operation pos op pointer (scaling.double pos (convert index .int)) pointer.ty) := by
  have isInt := convert_ty index .int
  have isOffset : (scaling.double pos (convert index .int)).isConstant = false := by cases scaling <;> rfl
  rw [pointerArithmetic, two, scale_two scaling pos isInt, convert_isConstant, varies]
  simp only [bind, Except.bind, Bool.false_eq_true, ↓reduceIte, isOffset, Bool.and_false]
  rfl

end Build

structure Evaluation where
  view : View
  place : Address := 0
  value : Int

namespace Expr

mutual

def perform (callees : Bytes → List Int → View → View × Int) (view : View) : Expr → Evaluation
  | .literal info => { view, value := info.value }
  | .var info _ offset =>
    let place := view.base + .ofInt 16 offset
    { view, place, value := view.memory.load (.ofSize info.ty.size) place }
  | .deref info address displacement =>
    let first := address.perform callees view
    let place := BitVec.ofInt 16 (first.value + displacement)
    { first with place, value := first.view.memory.load (.ofSize info.ty.size) place }
  | .step info target down =>
    let first := target.perform callees view
    let value := info.ty.wrap (if down then first.value - info.ty.stride else first.value + info.ty.stride)
    { first with
      value
      view := { first.view with memory := first.view.memory.store (.ofSize info.ty.size) first.place value } }
  | .addressOf _ target =>
    let first := target.perform callees view
    { view := first.view, value := first.place.toNat }
  | .cast info operand =>
    let first := operand.perform callees view
    { view := first.view, value := info.ty.wrap first.value }
  | .call _ name given =>
    let (after, values) := performAll callees view given
    let (last, value) := callees name values after
    { view := last, value }
  | .binary info op left right =>
    if op = .assign then
      let first := right.perform callees view
      let second := left.perform callees first.view
      { second with
        value := first.value
        view := { second.view with
          memory := second.view.memory.store (.ofSize info.ty.size) second.place first.value } }
    else
      let first := left.perform callees view
      let second := right.perform callees first.view
      { view := second.view, value := info.ty.wrap (op.meaning first.value second.value) }
  | .hollow _ => { view, value := 0 }
termination_by structural e => e

def performAll (callees : Bytes → List Int → View → View × Int) (view : View) : List Expr → View × List Int
  | [] => (view, [])
  | e :: rest =>
    let first := e.perform callees view
    let (after, values) := performAll callees first.view rest
    (after, first.value :: values)
termination_by structural es => es

end

variable (callees : Bytes → List Int → View → View × Int)

theorem perform_respelled (view : View) (e : Expr) :
    (e.respelled scaling).perform callees view = e.perform callees view := by
  rw [respelled.eq_def]
  split
  · rename_i info index count
    split
    · rename_i one
      have two : Build.literal info.pos 2 .int =
        .literal { pos := info.pos, ty := .int, constant := true, value := 2 } := rfl
      rw [two]
      simp only [perform, reduceCtorEq, ↓reduceIte, one, Operator.meaning]
      rfl
    · rfl
  · rename_i info index count
    split
    · rename_i two
      have one : Build.literal info.pos 1 .byte =
        .literal { pos := info.pos, ty := .byte, constant := true, value := 1 } := rfl
      rw [one]
      simp only [perform, reduceCtorEq, ↓reduceIte, two, Operator.meaning]
      rfl
    · rfl
  · rfl

mutual

theorem perform_rescaled (view : View) (e : Expr) :
    (e.rescaled scaling).perform callees view = e.perform callees view := by
  match e with
  | .literal _ | .var _ _ _ | .hollow _ => rfl
  | .deref _ address _ => simp only [rescaled, perform, perform_rescaled view address]
  | .step _ target _ => simp only [rescaled, perform, perform_rescaled view target]
  | .addressOf _ target => simp only [rescaled, perform, perform_rescaled view target]
  | .cast _ operand => simp only [rescaled, perform, perform_rescaled view operand]
  | .call _ _ given => simp only [rescaled, perform, performAll_rescaled view given]
  | .binary _ op left right =>
    have offset (view : View) :
        (rightOperand scaling op left (right.rescaled scaling)).perform callees view = right.perform callees view :=
      (rightOperand_keeps (perform_respelled callees view) op left _).trans (perform_rescaled view right)
    simp only [rescaled, perform, offset, perform_rescaled _ left]
termination_by structural e

theorem performAll_rescaled (view : View) (given : List Expr) :
    performAll callees view (rescaledAll scaling given) = performAll callees view given := by
  match given with
  | [] => rfl
  | e :: rest => simp only [rescaledAll, performAll, perform_rescaled view e, performAll_rescaled _ rest]
termination_by structural given

end

theorem perform_of_isPure {e : Expr} (isPure : e.isPure = true) (view : View) :
    e.perform callees view = ⟨view, e.place view, e.eval view⟩ := by
  fun_induction Expr.isPure e with
  | case1 | case2 => rfl
  | case3 info address displacement ih => simp only [perform, ih isPure, place, eval]
  | case4 info target ih =>
    simp only [perform, ih isPure, place]
    congr 1
    cases target with
    | step => cases isPure
    | literal | var | deref | addressOf | cast | call | binary | hollow => simp [place, eval]
  | case5 info operand ih => simp only [perform, ih isPure, place, eval]
  | case6 info op left right leftIh rightIh =>
    simp only [Bool.and_eq_true, decide_eq_true_eq] at isPure
    simp only [perform, if_neg isPure.1.1, leftIh isPure.1.2, rightIh isPure.2, place, eval]
  | case7 | case8 | case9 => cases isPure

theorem isPure_respelled (e : Expr) : (e.respelled scaling).isPure = e.isPure := by
  rw [respelled.eq_def]
  split
  · split <;> rfl
  · split <;> rfl
  · rfl

theorem isPure_rescaled (e : Expr) : (e.rescaled scaling).isPure = e.isPure := by
  fun_induction Expr.isPure e with
  | case1 | case2 | case7 | case8 | case9 => rfl
  | case3 _ _ _ ih | case4 _ _ ih | case5 _ _ ih => exact ih
  | case6 info op left right leftIh rightIh =>
    simp only [rescaled, isPure, rightOperand_keeps isPure_respelled, leftIh, rightIh]

theorem eval_rescaled {e : Expr} (isPure : e.isPure = true) (view : View) :
    (e.rescaled scaling).eval view = e.eval view := by
  have idle : Bytes → List Int → View → View × Int := fun _ _ view => (view, 0)
  have same : (e.rescaled scaling).perform idle view = e.perform idle view := perform_rescaled idle view e
  rw [perform_of_isPure idle isPure, perform_of_isPure idle (by rwa [isPure_rescaled])] at same
  exact congrArg Evaluation.value same

theorem calls_respelled (e : Expr) : (e.respelled scaling).calls = e.calls := by
  rw [respelled.eq_def]
  split
  · split <;> rfl
  · split <;> rfl
  · rfl

mutual

theorem calls_rescaled (e : Expr) : (e.rescaled scaling).calls = e.calls := by
  match e with
  | .literal _ | .var _ _ _ | .hollow _ => rfl
  | .deref _ address _ => simp only [rescaled, calls, calls_rescaled address]
  | .step _ target _ => simp only [rescaled, calls, calls_rescaled target]
  | .addressOf _ target => simp only [rescaled, calls, calls_rescaled target]
  | .cast _ operand => simp only [rescaled, calls, calls_rescaled operand]
  | .call _ _ given => simp only [rescaled, calls, callsAll_rescaled given]
  | .binary _ _ left right =>
    simp only [rescaled, calls, rightOperand_keeps calls_respelled, calls_rescaled left, calls_rescaled right]
termination_by structural e

theorem callsAll_rescaled (given : List Expr) : callsAll (rescaledAll scaling given) = callsAll given := by
  match given with
  | [] => rfl
  | e :: rest => simp only [rescaledAll, callsAll, calls_rescaled e, callsAll_rescaled rest]
termination_by structural given

end

end Expr

theorem callsOptional_rescaled (e : Option Expr) : callsOptional (e.map (Expr.rescaled scaling)) = callsOptional e := by
  cases e with
  | none => rfl
  | some e => exact e.calls_rescaled

def Declaration.rescaled (scaling : Scaling) (entry : Declaration) : Declaration :=
  { entry with init := entry.init.map (Expr.rescaled scaling) }

namespace Stmt

mutual

def rescaled (scaling : Scaling) : Stmt → Stmt
  | .empty => .empty
  | .breakLoop pos cleanup => .breakLoop pos cleanup
  | .continueLoop pos cleanup => .continueLoop pos cleanup
  | .assembly pos lines => .assembly pos lines
  | .branch pos condition yes no =>
    .branch pos (condition.map (Expr.rescaled scaling)) (yes.rescaled scaling)
      (match no with | some s => some (s.rescaled scaling) | none => none)
  | .forLoop pos init condition post body cleanup =>
    .forLoop pos (match init with | some s => some (s.rescaled scaling) | none => none)
      (condition.map (Expr.rescaled scaling)) (post.map (Expr.rescaled scaling)) (body.rescaled scaling) cleanup
  | .whileLoop pos condition body => .whileLoop pos (condition.map (Expr.rescaled scaling)) (body.rescaled scaling)
  | .ret pos value cleanup => .ret pos (value.map (Expr.rescaled scaling)) cleanup
  | .declare pos entry => .declare pos (entry.rescaled scaling)
  | .block pos body cleanup => .block pos (rescaledAll scaling body) cleanup
  | .evaluate pos e => .evaluate pos (e.rescaled scaling)
  | .bare e => .bare (e.rescaled scaling)
  | .stray pos inner => .stray pos (inner.rescaled scaling)
termination_by structural s => s

def rescaledAll (scaling : Scaling) : List Stmt → List Stmt
  | [] => []
  | s :: rest => s.rescaled scaling :: rescaledAll scaling rest
termination_by structural ss => ss

end

theorem rescaledAll_eq (body : List Stmt) : rescaledAll scaling body = body.map (rescaled scaling) := by
  induction body with
  | nil => rfl
  | cons s rest ih => rw [rescaledAll, ih, List.map_cons]

mutual

theorem terminates_rescaled (s : Stmt) : (s.rescaled scaling).terminates = s.terminates := by
  match s with
  | .empty | .breakLoop _ _ | .continueLoop _ _ | .assembly _ _ | .branch _ _ _ none | .whileLoop _ _ _ | .ret _ _ _
  | .declare _ _ | .evaluate _ _ | .bare _ | .stray _ _ | .forLoop _ none _ _ _ _ | .forLoop _ (some _) _ _ _ _ => rfl
  | .branch _ _ yes (some no) => simp only [rescaled, terminates, terminates_rescaled yes, terminates_rescaled no]
  | .block _ body _ => simp only [rescaled, terminates, anyTerminates_rescaled body]
termination_by structural s

theorem anyTerminates_rescaled (body : List Stmt) : anyTerminates (rescaledAll scaling body) = anyTerminates body := by
  match body with
  | [] => rfl
  | s :: rest => simp only [rescaledAll, anyTerminates, terminates_rescaled s, anyTerminates_rescaled rest]
termination_by structural body

end

mutual

theorem calls_rescaled (s : Stmt) : (s.rescaled scaling).calls = s.calls := by
  match s with
  | .empty | .breakLoop _ _ | .continueLoop _ _ | .assembly _ _ => rfl
  | .branch _ _ yes none => simp only [rescaled, calls, callsOptional_rescaled, calls_rescaled yes]
  | .branch _ _ yes (some no) =>
    simp only [rescaled, calls, callsOptional_rescaled, calls_rescaled yes, calls_rescaled no]
  | .forLoop _ none _ _ body _ => simp only [rescaled, calls, callsOptional_rescaled, calls_rescaled body]
  | .forLoop _ (some init) _ _ body _ =>
    simp only [rescaled, calls, callsOptional_rescaled, calls_rescaled init, calls_rescaled body]
  | .whileLoop _ _ body => simp only [rescaled, calls, callsOptional_rescaled, calls_rescaled body]
  | .ret _ _ _ => simp only [rescaled, calls, callsOptional_rescaled]
  | .declare _ _ => simp only [rescaled, calls, Declaration.rescaled, callsOptional_rescaled]
  | .block _ body _ => simp only [rescaled, calls, callsAll_rescaled body]
  | .evaluate _ e | .bare e => exact e.calls_rescaled
  | .stray _ inner => simp only [rescaled, calls, calls_rescaled inner]
termination_by structural s

theorem callsAll_rescaled (body : List Stmt) : callsAll (rescaledAll scaling body) = callsAll body := by
  match body with
  | [] => rfl
  | s :: rest => simp only [rescaledAll, callsAll, calls_rescaled s, callsAll_rescaled rest]
termination_by structural body

end

end Stmt

end Cb
