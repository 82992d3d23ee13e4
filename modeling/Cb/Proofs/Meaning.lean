import Cb.Proofs.Machine

/-! What a tree without side effects means: a number that depends on the frame's address and on
memory. Every operation is on unsigned numbers and cut to the width of its type. -/

namespace Cb

namespace Operator

def meaning (op : Operator) (a b : Int) : Int :=
  match op with
  | .add => a + b
  | .subtract => a - b
  | .multiply => a * b
  | .divide => a / b
  | .modulo => a % b
  | .or => (a.toNat ||| b.toNat : Nat)
  | .and => (a.toNat &&& b.toNat : Nat)
  | .xor => (a.toNat ^^^ b.toNat : Nat)
  | .shiftLeft => a * 2 ^ b.toNat
  | .shiftRight => a / 2 ^ b.toNat
  | .less => if a < b then 1 else 0
  | .greater => if b < a then 1 else 0
  | .greaterEqual => if b ≤ a then 1 else 0
  | .lessEqual => if a ≤ b then 1 else 0
  | .notEqual => if a ≠ b then 1 else 0
  | .equal => if a = b then 1 else 0
  | .assign | .unknown _ => 0

theorem meaning_of_isComparison {op : Operator} (kind : op.isComparison = true) (a b : Int) :
    op.meaning a b = 0 ∨ op.meaning a b = 1 := by
  cases op with
  | assign | shiftLeft | shiftRight | or | and | xor | add | subtract | multiply | divide | modulo => cases kind
  | unknown => exact .inl rfl
  | less | greater | greaterEqual | lessEqual | notEqual | equal =>
    simp only [meaning]
    split <;> simp

def isDivision (op : Operator) : Bool := op = .divide || op = .modulo

end Operator

structure View where
  base : Address
  memory : Memory

def Machine.view (m : Machine) : View := ⟨m.bp, m.memory⟩

namespace Expr

def width (e : Expr) : Width := .ofSize e.ty.size

def isPure : Expr → Bool
  | .literal _ | .var _ _ _ => true
  | .deref _ address _ => address.isPure
  | .addressOf _ target => target.isPure
  | .cast _ operand => operand.isPure
  | .binary _ op left right => op ≠ .assign && left.isPure && right.isPure
  | .step _ _ _ | .call _ _ _ | .hollow _ => false

theorem calls_of_isPure {e : Expr} (isPure : e.isPure = true) : e.calls = [] := by
  fun_induction Expr.isPure e with
  | case1 | case2 => rfl
  | case3 _ _ _ ih | case4 _ _ ih | case5 _ _ ih => exact ih isPure
  | case6 _ _ _ _ leftIh rightIh =>
    simp only [Bool.and_eq_true] at isPure
    exact List.append_eq_nil_iff.mpr ⟨leftIh isPure.1.2, rightIh isPure.2⟩
  | case7 | case8 | case9 => cases isPure

theorem isPure_operation {pos : Position} {ty : Ty} (isPure : (Build.operation pos op left right ty).isPure = true) :
    left.isPure = true ∧ right.isPure = true := by
  simp only [Build.operation, Expr.isPure, Bool.and_eq_true] at isPure
  exact ⟨isPure.1.2, isPure.2⟩

def eval (view : View) : Expr → Int
  | .literal info => info.value
  | .var info _ offset => view.memory.load (.ofSize info.ty.size) (view.base + .ofInt 16 offset)
  | .deref info address displacement =>
    view.memory.load (.ofSize info.ty.size) (.ofInt 16 (address.eval view + displacement))
  | .addressOf _ (.var _ _ offset) => (view.base + .ofInt 16 offset).toNat
  | .addressOf _ (.deref _ address displacement) =>
    (BitVec.ofInt 16 (address.eval view + displacement)).toNat
  | .cast info operand => info.ty.wrap (operand.eval view)
  | .binary info op left right => info.ty.wrap (op.meaning (left.eval view) (right.eval view))
  | _ => 0

def Safe (low : Address) (view : View) : Expr → Prop
  | .var info _ offset => Clear low (.ofSize info.ty.size) (view.base + .ofInt 16 offset)
  | .deref info address displacement =>
    address.Safe low view ∧
      Clear low (.ofSize info.ty.size) (.ofInt 16 (address.eval view + displacement))
  | .addressOf _ (.deref _ address _) => address.Safe low view
  | .cast _ operand => operand.Safe low view
  | .binary _ op left right =>
    left.Safe low view ∧ right.Safe low view ∧ (op.isDivision = true → right.eval view ≠ 0)
  | _ => True

def decideSafe (low : Address) (view : View) : (e : Expr) → Decidable (e.Safe low view)
  | .var _ _ _ => inferInstanceAs (Decidable (Clear _ _ _))
  | .deref _ address _ =>
    have := address.decideSafe low view
    inferInstanceAs (Decidable (_ ∧ Clear _ _ _))
  | .addressOf _ (.deref _ address _) => address.decideSafe low view
  | .cast _ operand => operand.decideSafe low view
  | .binary _ _ left right =>
    have := left.decideSafe low view
    have := right.decideSafe low view
    inferInstanceAs (Decidable (_ ∧ _ ∧ (_ → _ ≠ _)))
  | .literal _ | .step _ _ _ | .call _ _ _ | .hollow _ => .isTrue trivial
  | .addressOf _ (.literal _) | .addressOf _ (.var _ _ _) | .addressOf _ (.step _ _ _)
  | .addressOf _ (.addressOf _ _) | .addressOf _ (.cast _ _) | .addressOf _ (.call _ _ _)
  | .addressOf _ (.binary _ _ _ _) | .addressOf _ (.hollow _) => .isTrue trivial

instance (low : Address) (view : View) (e : Expr) : Decidable (e.Safe low view) := e.decideSafe low view

end Expr

theorem Ty.wrap_eq (t : Ty) (value : Int) : t.wrap value = value % (Width.ofSize t.size).modulus := by
  rcases Lower.size_cases t with size | size <;> simp only [wrap, bits, size] <;> rfl

theorem Clear.mono {low lower : Address} (clear : Clear low w a) (below : lower ≤ low) :
    Clear lower w a := fun b cell => BitVec.le_trans below (clear b cell)

theorem Expr.Safe.congr {low lower base : Address} (below : lower ≤ low) (same : ∀ a, low ≤ a → other a = memory a)
    {e : Expr} (safe : e.Safe low ⟨base, memory⟩) :
    e.Safe lower ⟨base, other⟩ ∧ e.eval ⟨base, other⟩ = e.eval ⟨base, memory⟩ := by
  have read {w : Width} {a : Address} (clear : Clear low w a) : other.load w a = memory.load w a :=
    Memory.load_congr fun b cell => same b (clear b cell)
  fun_induction Expr.eval ⟨base, memory⟩ e with
  | case1 info => exact ⟨trivial, rfl⟩
  | case2 info name offset => exact ⟨Clear.mono safe below, read safe⟩
  | case3 info address displacement ih =>
    obtain ⟨inner, clear⟩ := safe
    obtain ⟨safeAddress, sameAddress⟩ := ih inner
    simp only [Safe, eval, sameAddress]
    exact ⟨⟨safeAddress, clear.mono below⟩, read clear⟩
  | case4 info inner name offset => exact ⟨trivial, rfl⟩
  | case5 info inner address displacement ih =>
    obtain ⟨safeAddress, sameAddress⟩ := ih safe
    simp only [Safe, eval, sameAddress]
    exact ⟨safeAddress, trivial⟩
  | case6 info operand ih =>
    obtain ⟨safeOperand, sameOperand⟩ := ih safe
    simp only [Safe, eval, sameOperand]
    exact ⟨safeOperand, trivial⟩
  | case7 info op left right leftIh rightIh =>
    obtain ⟨leftSafe, rightSafe, divisor⟩ := safe
    obtain ⟨safeLeft, sameLeft⟩ := leftIh leftSafe
    obtain ⟨safeRight, sameRight⟩ := rightIh rightSafe
    simp only [Safe, eval, sameLeft, sameRight]
    exact ⟨⟨safeLeft, safeRight, divisor⟩, trivial⟩
  | case8 e noLiteral noVar noDeref noVarAddress noDerefAddress noCast noBinary =>
    cases e with
    | literal info => exact absurd rfl (noLiteral info)
    | var info name offset => exact absurd rfl (noVar info name offset)
    | deref info address displacement => exact absurd rfl (noDeref info address displacement)
    | cast info operand => exact absurd rfl (noCast info operand)
    | binary info op left right => exact absurd rfl (noBinary info op left right)
    | step | call | hollow => exact ⟨trivial, rfl⟩
    | addressOf info target =>
      cases target with
      | var inner name offset => exact absurd rfl (noVarAddress info inner name offset)
      | deref inner address displacement => exact absurd rfl (noDerefAddress info inner address displacement)
      | literal | step | addressOf | cast | call | binary | hollow => exact ⟨trivial, rfl⟩

end Cb
