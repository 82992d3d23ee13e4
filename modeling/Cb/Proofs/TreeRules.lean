import Cb.Proofs.Nodes
import Cb.Proofs.ProgramRules

/-! Every node of an accepted tree fits its parts: types agree, what can be computed in advance has been
computed, and only places can be written to. -/

namespace Cb

namespace Expr

def isLiteral : Expr → Bool
  | .literal _ => true
  | _ => false

def isPlaceNode : Expr → Bool
  | .var _ _ _ | .deref _ _ _ | .step _ _ _ => true
  | _ => false

end Expr

def Operator.Joins (op : Operator) (left right : Expr) (ty : Ty) : Prop :=
  op ∈ Operator.all ∧
  if op = .assign then left.isWritable = true ∧ left.ty = ty ∧ right.ty = ty
  else if op.isComparison = true then
    ty = .flags ∧ left.ty.isArithmetic = true ∧ right.ty = left.ty ∧ (left.isConstant && right.isConstant) = false
  else if op.isShift = true then
    ty.isArithmetic = true ∧ left.ty = ty ∧ left.isConstant = false ∧ right.ty.isArithmetic = true ∧ right.isConstant = true
  else
    op.isArithmetic = true ∧ left.ty = ty ∧ (left.isConstant && right.isConstant) = false ∧
      if ty.isPointer = true then op.isAdditive = true ∧ right.ty = .int
      else ty.isArithmetic = true ∧ right.ty = ty

def Expr.JoinsParts (table : List Function) : Expr → Prop
  | .literal info => 0 ≤ info.value ∧ info.value < 2 ^ info.ty.bits ∧ (info.ty = .flags → info.value ≤ 1)
  | .var info _ _ => info.ty.IsValue
  | .deref info address _ => address.ty.isPointer = true ∧ address.ty.deref = info.ty ∧ info.ty ≠ .void
  | .step info target _ => target.isWritable = true ∧ target.ty = info.ty
  | .addressOf info target => info.ty = target.ty.ref
  | .cast info operand => operand.ty ≠ info.ty ∧ operand.ty.canCast info.ty = true ∧ operand.isConstant = false
  | .call info name given => ∃ f ∈ table, f.name = name ∧ given.map Expr.ty = f.paramTypes ∧ info.ty = f.returns
  | .binary info op left right => op.Joins left right info.ty
  | .hollow _ => False

structure Expr.Obeys (table : List Function) (e : Expr) : Prop where
  constant : e.isConstant = e.isLiteral
  writable : e.isWritable = e.isPlaceNode
  parts : e.JoinsParts table

namespace Operator

variable {op : Operator} {left right : Expr}

theorem joins_comparison (kind : op.isComparison = true) (listed : op ∈ Operator.all)
    (number : left.ty.isArithmetic = true) (same : right.ty = left.ty)
    (varies : (left.isConstant && right.isConstant) = false) : op.Joins left right .flags := by
  have notAssign : op ≠ .assign := by
    rintro rfl
    cases kind
  rw [Joins, if_neg notAssign, if_pos kind]
  exact ⟨listed, rfl, number, same, varies⟩

theorem joins_shift (kind : op.isShift = true) (number : left.ty.isArithmetic = true)
    (count : right.ty.isArithmetic = true) (varies : left.isConstant = false) (fixed : right.isConstant = true) :
    op.Joins left right left.ty := by
  have others : op ∈ all ∧ op ≠ .assign ∧ op.isComparison = false := by
    cases op <;> first | decide | cases kind
  rw [Joins, if_neg others.2.1, others.2.2, if_neg Bool.false_ne_true, if_pos kind]
  exact ⟨others.1, number, rfl, varies, count, fixed⟩

theorem joins_arithmetic (kind : op.isArithmetic = true) (varies : (left.isConstant && right.isConstant) = false)
    (types : left.ty.isPointer = true ∧ op.isAdditive = true ∧ right.ty = .int ∨
      left.ty.isArithmetic = true ∧ right.ty = left.ty) : op.Joins left right left.ty := by
  have others : op ∈ all ∧ op ≠ .assign ∧ op.isComparison = false ∧ op.isShift = false := by
    cases op <;> first | decide | cases kind
  rw [Joins, if_neg others.2.1, others.2.2.1, if_neg Bool.false_ne_true, others.2.2.2, if_neg Bool.false_ne_true]
  refine ⟨others.1, kind, rfl, varies, ?_⟩
  rcases types with ⟨pointer, additive, offset⟩ | ⟨number, same⟩
  · rw [if_pos pointer]
    exact ⟨additive, offset⟩
  · rw [Ty.isPointer_of_isArithmetic number, if_neg Bool.false_ne_true]
    exact ⟨number, same⟩

end Operator

theorem Typed.obeys
    (callees : ∀ callee, known.callees callee → ∃ f ∈ table, f.name = callee.name ∧ f.paramTypes = callee.paramTypes ∧
      f.returns = callee.returns) (typed : Typed known e) : e.Obeys table := by
  cases typed with
  | literal lower upper kind =>
    refine ⟨rfl, rfl, lower, by simpa using upper, fun isFlags => ?_⟩
    rcases kind with isValue | isFlags
    · exact absurd isFlags isValue.1.ne_flags
    · exact isFlags.2
  | var found => exact ⟨rfl, rfl, known.names_value found⟩
  | deref inner pointer pointee moves => exact ⟨rfl, rfl, pointer, rfl, pointee⟩
  | step inner writable scalar => exact ⟨rfl, rfl, writable, rfl⟩
  | addressOfVar found => exact ⟨rfl, rfl, rfl⟩
  | addressOfDeref inner pointer pointee moved varies => exact ⟨rfl, rfl, rfl⟩
  | cast inner named varies changes legal => exact ⟨rfl, rfl, changes, legal, varies⟩
  | call found types inner =>
    obtain ⟨f, member, name, params, returns⟩ := callees _ found
    exact ⟨rfl, rfl, f, member, name, types.trans params.symm, returns.symm⟩
  | assign left right writable same => exact ⟨rfl, rfl, by decide, writable, rfl, same⟩
  | arithmetic left right kind number same varies =>
    exact ⟨rfl, rfl, Operator.joins_arithmetic kind varies (Or.inr ⟨number, same⟩)⟩
  | pointer left right kind pointer offset varies =>
    exact ⟨rfl, rfl, Operator.joins_arithmetic (Operator.isArithmetic_of_isAdditive kind) varies
      (Or.inl ⟨pointer, kind, offset⟩)⟩
  | shift left right kind number count varies fixed =>
    exact ⟨rfl, rfl, Operator.joins_shift kind number count varies fixed⟩
  | comparison left right kind listed number same varies =>
    exact ⟨rfl, rfl, Operator.joins_comparison kind listed number same varies⟩

/-- Every tree in an accepted body obeys the typing rules of the language. -/
theorem trees_well_typed {env : Env} {program : Program} (parsed : (parse env).program = .ok program) {f : Function}
    (member : f ∈ program.functions) {body : Stmt} (implemented : f.body = some body) {e : Expr}
    (inside : (Node.stmt body).Contains (.expr e)) : e.Obeys program.functions := by
  obtain ⟨_, frame, _, _, keeps, accepts⟩ := (parse_isTable parsed).accepted f member body implemented
  obtain ⟨scope, _, typed⟩ := accepts.contains .nil (by simp) inside
  refine typed.obeys fun callee found => ?_
  obtain ⟨known, isKnown, rfl⟩ := found
  exact keeps known isKnown

def mixture : Env where
  source :=
    { lines := #["int* advance(int* p, byte n) \x7b return n + p; \x7d void main() \x7b int a[3]; byte b = 200;",
        "*(advance(a, 1 + 1)) = b << 2; ++*a; if (a[2] > 255) b = (byte) a[0]; \x7d"]
      origins := #["mixture.cb", "mixture.cb"] }
  settings := {}

def Function.returnsSum (f : Function) : Bool :=
  match f.body with
  | some (.block _ [.ret _ (some (.binary _ .add _ _)) _] _) => true
  | _ => false

theorem trees_well_typed_mixture :
    ∃ program f body info left right, (parse mixture).program = .ok program ∧ f ∈ program.functions ∧
      f.body = some body ∧ (Node.stmt body).Contains (.expr (.binary info .add left right)) ∧
      (Expr.binary info .add left right).Obeys program.functions := by
  have accepted : (parse mixture).program.toOption.any (·.functions.any Function.returnsSum) = true := by decide +kernel
  obtain ⟨program, parsed, hasSum⟩ := exists_of_any accepted
  obtain ⟨f, member, isSum⟩ := List.any_eq_true.mp hasSum
  rw [Function.returnsSum] at isSum
  split at isSum
  · rename_i pos retPos info left right cleanup blockCleanup isBody
    have isReturn : .stmt (.ret retPos (some (.binary info .add left right)) cleanup) ∈
        (Node.stmt (.block pos [.ret retPos (some (.binary info .add left right)) cleanup] blockCleanup)).children :=
      List.mem_singleton.mpr rfl
    have inside := Node.Contains.part isReturn (.part (List.mem_singleton.mpr rfl)
      (.self (.expr (.binary info .add left right))))
    exact ⟨program, f, _, info, left, right, parsed, member, isBody, inside,
      trees_well_typed parsed member isBody inside⟩
  · cases isSum

end Cb
