import Cb.Lower.Expression
import Cb.Proofs.Typing

/-! The code of a typed tree, seen without running it: no error is met, control runs straight through,
the stack ends as high as it started, and the result is an operand of the width of the tree's type. -/

namespace Cb

def Width.bytes : Width → Nat
  | .byte => 1
  | .word => 2

namespace Instr

def stackEffect (popped : Bytes → Int) : Instr → Int
  | .push _ => -2
  | .pop _ => 2
  | .pushByte _ => -1
  | .popByte _ => 1
  | .popBytes count => count
  | .arithmetic .add (.register .stack) (.immediate n) => n
  | .arithmetic .sub (.register .stack) (.immediate n) => -n
  | .call name => popped name
  | _ => 0

def isPlain : Instr → Bool
  | .jump _ | .jumpIf _ _ | .ret _ => false
  | .mov (.register .base) _ | .pop (.register .base) => false
  | _ => true

end Instr

def netEffect (popped : Bytes → Int) (code : List Instr) : Int :=
  code.foldr (fun i rest => i.stackEffect popped + rest) 0

@[simp] theorem netEffect_nil (popped : Bytes → Int) : netEffect popped [] = 0 := rfl

@[simp] theorem netEffect_cons (popped : Bytes → Int) (i : Instr) (rest : List Instr) :
    netEffect popped (i :: rest) = i.stackEffect popped + netEffect popped rest := rfl

@[simp] theorem netEffect_append (popped : Bytes → Int) (first second : List Instr) :
    netEffect popped (first ++ second) = netEffect popped first + netEffect popped second := by
  induction first with
  | nil => simp
  | cons i rest ih => simp [ih, Int.add_assoc]

def Shifts (popped : Bytes → Int) (change : Int) (code : List Instr) : Prop :=
  (∀ i ∈ code, i.isPlain = true) ∧ netEffect popped code = change

namespace Shifts

variable {popped : Bytes → Int}

theorem nil : Shifts popped 0 [] := ⟨by simp, rfl⟩

theorem single (plain : i.isPlain = true) : Shifts popped (i.stackEffect popped) [i] :=
  ⟨by simpa using plain, by simp⟩

theorem append (head : Shifts popped a first) (tail : Shifts popped b second) :
    Shifts popped (a + b) (first ++ second) := by
  refine ⟨?_, by rw [netEffect_append, head.2, tail.2]⟩
  intro i member
  rcases List.mem_append.mp member with early | late
  · exact head.1 i early
  · exact tail.1 i late

theorem of_eq (shifts : Shifts popped a code) (same : a = b) :
    Shifts popped b code := same ▸ shifts

theorem mov (free : target ≠ .register .base) : Shifts popped 0 [.mov target source] := by
  refine single ?_
  unfold Instr.isPlain
  split
  all_goals first | rfl | simp_all

theorem arithmetic (free : target ≠ .register .stack) :
    Shifts popped 0 [.arithmetic op target source] := by
  have none : (Instr.arithmetic op target source).stackEffect popped = 0 := by
    unfold Instr.stackEffect
    split
    all_goals first | rfl | simp_all
  exact (single rfl).of_eq none

end Shifts

def Register.carriers : Width → List Register
  | .byte => [.al, .general .b .low, .general .d .low, .ah]
  | .word => [.ax, .bx, .dx]

def Operand.fits (w : Width) : Operand → Bool
  | .none => false
  | .immediate _ => true
  | .frame v _ | .data v _ _ => v = w
  | .register r => r ∈ Register.carriers w

namespace Operand

theorem ne_stack_of_fits {o : Operand} (fits : o.fits w = true) : o ≠ .register .stack := by
  rintro rfl
  cases w <;> exact absurd fits (by decide)

theorem ne_base_of_fits {o : Operand} (fits : o.fits w = true) : o ≠ .register .base := by
  rintro rfl
  cases w <;> exact absurd fits (by decide)

theorem kind_ne_immediate {o : Operand} (memory : o.isMemory = true) : o.kind ≠ .immediate := by
  intro isImmediate
  simp [isMemory, OperandKind.isMemory, isImmediate] at memory

theorem kind_ne_register {o : Operand} (memory : o.isMemory = true) : o.kind ≠ .register := by
  intro isRegister
  simp [isMemory, OperandKind.isMemory, isRegister] at memory

end Operand

structure Lowered.Supplies (popped : Bytes → Int) (w : Width) (l : Lowered) : Prop where
  fine : l.error = none
  level : Shifts popped 0 l.code
  fits : l.result.fits w = true

namespace Lower

variable {popped : Bytes → Int}

theorem accumulator_fits (w : Width) : (register (accumulator w)).fits w = true := by
  cases w <;> rfl

theorem partner_fits (w : Width) (o : Operand) : (register (partner w o)).fits w = true := by
  simp only [partner]
  split <;> cases w <;> rfl

theorem save_shifts (w : Width) (o : Operand) : Shifts popped (-w.bytes) (save w o) := by
  cases w with
  | word => exact .single rfl
  | byte =>
    simp only [save]
    split
    · exact (Shifts.mov (by decide)).append (.single rfl)
    · exact .single rfl

variable {w : Width} {left right : Lowered} {target : Register}

theorem load_shifts (free : o ≠ .register .base) : Shifts popped w.bytes [load w o] := by
  cases w with
  | byte => exact .single rfl
  | word =>
    refine .single ?_
    simp only [load]
    unfold Instr.isPlain
    split
    all_goals first | rfl | simp_all

theorem move_shifts (o : Operand) (free : register target ≠ .register .base) :
    Shifts popped 0 (if o = register target then [] else [.mov (register target) o]) := by
  split
  · exact .nil
  · exact .mov free

theorem fetchLeft_shifts (o : Operands) (free : register target ≠ .register .base) :
    Shifts popped (if o.saved then o.width.bytes else 0) (fetchLeft o target).1 := by
  simp only [fetchLeft]
  split
  · rename_i saved
    exact load_shifts free
  · split
    · exact .nil
    · exact .mov free

theorem fetchLeft_fits (o : Operands) (leftFits : o.left.fits o.width = true)
    (targetFits : (register target).fits o.width = true) : (fetchLeft o target).2.fits o.width = true := by
  simp only [fetchLeft]
  split
  · exact targetFits
  · split
    · exact leftFits
    · exact targetFits

theorem fetchLeft_kind (o : Operands) (target : Register) : (fetchLeft o target).2.kind = .register := by
  simp only [fetchLeft]
  split
  · rfl
  · split
    · assumption
    · rfl

def Operands.taker (o : Operands) : Register :=
  if o.right.kind = .register then partner o.width o.right else accumulator o.width

theorem Operands.taker_fits (o : Operands) : (register o.taker).fits o.width = true := by
  rw [taker]
  split
  · exact partner_fits _ _
  · exact accumulator_fits _

theorem twoOperand_shape (op : Operator) (instr : Arithmetic) (rightFits : o.right.fits o.width = true) :
    (o.right.kind = .register ∧ o.saved = false ∧ isSwappable op = true ∧
      twoOperand op instr o =
        { code := o.code ++ [.arithmetic instr o.right o.left], result := o.right, error := o.error }) ∨
    twoOperand op instr o =
      { code := o.code ++ (fetchLeft o o.taker).1 ++ [.arithmetic instr (fetchLeft o o.taker).2 o.right]
        result := (fetchLeft o o.taker).2, error := o.error } := by
  simp only [twoOperand, Operands.taker]
  split
  · rename_i isNone
    cases shape : o.right <;> simp_all [Operand.kind, Operand.fits]
  · rename_i isRegister
    split
    · rename_i swapped
      simp only [Bool.and_eq_true, Bool.not_eq_true'] at swapped
      exact .inl ⟨isRegister, swapped.1.1, swapped.2, rfl⟩
    · exact .inr rfl
  · rename_i noRegister
    exact .inr (by rw [if_neg noRegister])

section

variable (uses : Bool) (leftSupplies : left.Supplies popped w) (rightSupplies : right.Supplies popped w)

include leftSupplies rightSupplies

theorem operands_shifts :
    (operands left right w uses).error = none ∧
      Shifts popped (if (operands left right w uses).saved then -w.bytes else 0)
        (operands left right w uses).code := by
  refine ⟨by simp [operands, leftSupplies.fine, rightSupplies.fine], ?_⟩
  by_cases saved : (left.result.isVolatile && uses) = true
  · simp only [operands, saved, ↓reduceIte]
    exact ((leftSupplies.level.append (save_shifts w left.result)).append rightSupplies.level).of_eq (by simp)
  · simp only [operands, saved]
    exact ((leftSupplies.level.append .nil).append rightSupplies.level).of_eq (by simp)

theorem twoOperand_supplies (op : Operator) (instr : Arithmetic) :
    (twoOperand op instr (operands left right w uses)).Supplies popped w ∧
      (twoOperand op instr (operands left right w uses)).result.kind = .register := by
  obtain ⟨fine, computed⟩ := operands_shifts uses leftSupplies rightSupplies
  have rightFits := rightSupplies.fits
  rcases twoOperand_shape op instr (o := operands left right w uses) rightFits with
    ⟨isRegister, unsaved, -, shape⟩ | shape
  · rw [shape]
    refine ⟨⟨fine, (computed.append (.arithmetic (Operand.ne_stack_of_fits rightFits))).of_eq ?_, rightFits⟩, isRegister⟩
    simp [unsaved]
  · rw [shape]
    have targetFits := (operands left right w uses).taker_fits
    have fetched : Shifts popped _ _ := fetchLeft_shifts (operands left right w uses) (Operand.ne_base_of_fits targetFits)
    have fits : (fetchLeft (operands left right w uses) _).2.fits w = true :=
      fetchLeft_fits (operands left right w uses) leftSupplies.fits targetFits
    refine ⟨⟨fine, ((computed.append fetched).append (.arithmetic (Operand.ne_stack_of_fits fits))).of_eq ?_, fits⟩,
      fetchLeft_kind _ _⟩
    cases (operands left right w uses).saved <;> grind [operands]

theorem comparison_level (op : Operator) :
    (comparison op (operands left right w uses)).error = none ∧
      Shifts popped 0 (comparison op (operands left right w uses)).code := by
  have supplies := (twoOperand_supplies uses leftSupplies rightSupplies op .cmp).1
  exact ⟨supplies.fine, supplies.level⟩

end

theorem shift_supplies (op : Operator) (leftSupplies : left.Supplies popped w)
    (rightFine : right = { result := .immediate count }) : (shift op left right w).Supplies popped w := by
  subst rightFine
  have moved : Shifts popped 0 _ := move_shifts left.result (Operand.ne_base_of_fits (accumulator_fits w))
  have shifted : Shifts popped 0 [if op = .shiftLeft then
      Instr.shiftLeft (register (accumulator w)) (.immediate count)
      else .shiftRight (register (accumulator w)) (.immediate count)] := by
    split <;> exact .single rfl
  simp only [shift, Operand.kind, ne_eq, not_true_eq_false, ↓reduceIte, List.append_nil]
  exact ⟨by simp [leftSupplies.fine], ((leftSupplies.level.append moved).append shifted).of_eq (by simp),
    accumulator_fits w⟩

theorem multiplier_shifts (w : Width) (right : Operand) : Shifts popped 0 (multiplier w right).1 := by
  simp only [multiplier]
  split
  · exact .nil
  · exact move_shifts _ (by cases w <;> decide)

theorem multiplication_supplies (uses : Bool) (leftSupplies : left.Supplies popped w)
    (rightSupplies : right.Supplies popped w) (op : Operator) :
    (multiplication op (operands left right w uses)).Supplies popped w ∧
      (multiplication op (operands left right w uses)).result.kind = .register := by
  obtain ⟨fine, computed⟩ := operands_shifts uses leftSupplies rightSupplies
  have noBase := Operand.ne_base_of_fits (accumulator_fits w)
  have present : (operands left right w uses).right ≠ .none := by
    intro missing
    have fits := rightSupplies.fits
    rw [show right.result = .none from missing] at fits
    cases fits
  have fetched : Shifts popped (if (operands left right w uses).saved then w.bytes else 0)
      (if (operands left right w uses).saved then [load w (register (accumulator w))]
        else if (operands left right w uses).left = register (accumulator w) then []
        else [.mov (register (accumulator w)) (operands left right w uses).left]) := by
    split
    · exact load_shifts noBase
    · exact move_shifts _ noBase
  have ready := ((computed.append (multiplier_shifts w right.result)).append fetched).of_eq
    (show _ = (0 : Int) by split <;> omega)
  simp only [multiplication, present, ↓reduceIte]
  split
  · exact ⟨⟨fine, ready.append (.single rfl), accumulator_fits w⟩, rfl⟩
  · have divided (r : Register) (free : register r ≠ .register .base) (source : Operand) :
        Shifts popped 0 [.mov (register r) (.immediate 0), .div source] :=
      (Shifts.mov free).append (.single rfl)
    refine ⟨⟨fine, ready.append (divided _ ?_ _), ?_⟩, ?_⟩
    · cases w <;> simp [register, operands, Register.ah, Register.dx]
    · dsimp only
      split
      · cases w <;> rfl
      · exact accumulator_fits w
    · dsimp only
      split <;> rfl

theorem assignment_supplies (uses : Bool) (leftSupplies : left.Supplies popped w)
    (rightSupplies : right.Supplies popped w) (memory : left.result.isMemory = true) :
    (assignment left right w uses).Supplies popped w := by
  have noBase := Operand.ne_base_of_fits leftSupplies.fits
  have noRegister := Operand.kind_ne_register memory
  refine ⟨by simp [assignment, leftSupplies.fine, rightSupplies.fine], ?_, leftSupplies.fits⟩
  by_cases saved : (right.result.isVolatile && uses) = true
  · have stored : Shifts popped w.bytes (if (decide (w = .byte) && decide (left.result.kind ≠ .register)) = true
        then [.popByte (register .al), .mov left.result (register .al)] else [load w left.result]) := by
      split
      · rename_i isByte
        simp only [Bool.and_eq_true, decide_eq_true_eq] at isByte
        rw [isByte.1]
        exact (Shifts.single rfl).append (.mov noBase)
      · exact load_shifts noBase
    simp only [assignment, saved, ↓reduceIte]
    exact (((rightSupplies.level.append (save_shifts w right.result)).append leftSupplies.level).append
      stored).of_eq (by omega)
  · have stored : Shifts popped 0 (if (left.result.isMemory && right.result.isMemory) = true
        then [.mov (register (accumulator w)) right.result, .mov left.result (register (accumulator w))]
        else [.mov left.result right.result]) := by
      split
      · exact (Shifts.mov (Operand.ne_base_of_fits (accumulator_fits w))).append (.mov noBase)
      · exact .mov noBase
    simp only [assignment, saved]
    exact (((rightSupplies.level.append .nil).append leftSupplies.level).append stored).of_eq (by omega)

theorem dereference_cases (size : Nat) (displacement : Int) (fits : address.result.fits .word = true) :
    (∃ value, address.result = .immediate value ∧ dereference address size displacement =
      { address with result := .data (.ofSize size) (.address value) displacement }) ∨
    dereference address size displacement =
      { address with
        code := address.code ++ (if address.result = register .bx then [] else [.mov (register .bx) address.result])
        result := .data (.ofSize size) .bx displacement } := by
  simp only [dereference]
  split
  · rename_i value shape
    exact .inl ⟨value, shape, rfl⟩
  · rename_i shape
    rw [shape] at fits
    cases fits
  · right
    split <;> rfl

theorem dereference_supplies (size : Nat) (displacement : Int) (supplies : address.Supplies popped .word) :
    (dereference address size displacement).Supplies popped (.ofSize size) ∧
      (dereference address size displacement).result.kind = .data := by
  rcases dereference_cases size displacement supplies.fits with ⟨value, _, shape⟩ | shape
  · rw [shape]
    exact ⟨⟨supplies.fine, supplies.level, by simp [Operand.fits]⟩, rfl⟩
  · rw [shape]
    have moved := supplies.level.append (move_shifts address.result (show register .bx ≠ .register .base by decide))
    exact ⟨⟨supplies.fine, moved.of_eq (by simp), by simp [Operand.fits]⟩, rfl⟩

theorem increment_supplies {target : Lowered} (ty : Ty) (down : Bool) (supplies : target.Supplies popped w) :
    (increment target ty down).Supplies popped w := by
  have noStack := Operand.ne_stack_of_fits supplies.fits
  refine ⟨supplies.fine, ?_, supplies.fits⟩
  simp only [increment]
  refine (supplies.level.append (b := 0) ?_).of_eq (by simp)
  split
  · split <;> exact .single rfl
  · exact .arithmetic noStack

theorem moveAddress_shifts (n : Int) : Shifts popped 0 (moveAddress n) := by
  simp only [moveAddress]
  split
  · exact .nil
  · split <;> exact .arithmetic (by decide)

theorem frameAddress_supplies (offset : Int) : (frameAddress offset).Supplies popped .word :=
  ⟨rfl, (Shifts.mov (by decide)).append (moveAddress_shifts offset), rfl⟩

theorem dataAddress_supplies (displacement : Int) (supplies : address.Supplies popped .word) :
    (dataAddress address displacement).Supplies popped .word := by
  have moved : Shifts popped 0 _ := move_shifts address.result (show register .dx ≠ .register .base by decide)
  exact ⟨supplies.fine, ((supplies.level.append moved).append (moveAddress_shifts displacement)).of_eq (by simp),
    rfl⟩

theorem lowByte_fits {o : Operand} (fits : o.fits .word = true) : o.lowByte.fits .byte = true := by
  cases o with
  | none => cases fits
  | immediate | frame | data => rfl
  | register r =>
    simp only [Operand.fits, Register.carriers, List.mem_cons, List.not_mem_nil, or_false,
      decide_eq_true_eq] at fits
    rcases fits with rfl | rfl | rfl <;> rfl

theorem lowByte_kind (o : Operand) : o.lowByte.kind = o.kind := by
  cases o <;> rfl

theorem widening_supplies (supplies : operand.Supplies popped .byte) (varies : operand.result.kind ≠ .immediate) :
    (conversion operand 1 2).Supplies popped .word ∧ (conversion operand 1 2).result.kind = .register := by
  have extended (code : List Instr) (moves : Shifts popped 0 code) : Shifts popped 0 (operand.code ++ code) :=
    (supplies.level.append moves).of_eq (by simp)
  have through (o : Operand) : Shifts popped 0 [.mov (register .al) o, .mov (register .ah) (.immediate 0)] :=
    (Shifts.mov (by decide)).append (.mov (by decide))
  have fits := supplies.fits
  cases shape : operand.result with
  | none =>
    rw [shape] at fits
    cases fits
  | immediate value => exact absurd (by rw [shape]; rfl) varies
  | frame v offset | data v base displacement =>
    simp only [conversion, shape]
    exact ⟨⟨supplies.fine, extended _ (through _), rfl⟩, rfl⟩
  | register r =>
    rw [shape] at fits
    simp only [Operand.fits, Register.carriers, List.mem_cons, List.not_mem_nil, or_false,
      decide_eq_true_eq] at fits
    simp only [conversion, shape]
    rcases fits with rfl | rfl | rfl | rfl
    · exact ⟨⟨supplies.fine, extended _ (.mov (by decide)), rfl⟩, rfl⟩
    · exact ⟨⟨supplies.fine, extended _ (.mov (by decide)), rfl⟩, rfl⟩
    · exact ⟨⟨supplies.fine, extended _ (.mov (by decide)), rfl⟩, rfl⟩
    · exact ⟨⟨supplies.fine, extended _ (through _), rfl⟩, rfl⟩

theorem size_cases (t : Ty) : t.size = 1 ∨ t.size = 2 := by
  simp only [Ty.size]
  split
  · exact .inl rfl
  · exact .inr rfl

theorem conversion_supplies (source target : Ty) (supplies : operand.Supplies popped (.ofSize source.size))
    (varies : operand.result.kind ≠ .immediate) :
    (conversion operand source.size target.size).Supplies popped (.ofSize target.size) ∧
      (conversion operand source.size target.size).result.kind ≠ .immediate := by
  rcases size_cases source with from1 | from2 <;> rcases size_cases target with to1 | to2
  · rw [from1] at supplies ⊢
    rw [to1]
    exact ⟨supplies, varies⟩
  · rw [from1] at supplies ⊢
    rw [to2]
    have widened := widening_supplies supplies varies
    exact ⟨widened.1, by rw [widened.2]; decide⟩
  · rw [from2] at supplies ⊢
    rw [to1]
    refine ⟨⟨supplies.fine, supplies.level, lowByte_fits supplies.fits⟩, ?_⟩
    change operand.result.lowByte.kind ≠ .immediate
    rw [lowByte_kind]
    exact varies
  · rw [from2] at supplies ⊢
    rw [to2]
    exact ⟨supplies, varies⟩

def pushResult (result : Operand) (size : Nat) : List Instr := (pushSlot { result } size).code

theorem pushSlot_code (value : Lowered) (size : Nat) :
    (pushSlot value size).code = value.code ++ pushResult value.result size := by
  cases shape : value.result <;> simp only [pushResult, pushSlot, shape]
  case none => rw [List.append_nil]
  case register r => split <;> rfl
  all_goals rfl

theorem pushResult_shifts (size : Nat) (fits : result.fits w = true) :
    Shifts popped (-2) (pushResult result size) := by
  have loaded (target : Register) (free : register target ≠ .register .base) :
      Shifts popped (-2) [.mov (register target) result, .push (register .ax)] :=
    ((Shifts.mov free).append (.single rfl)).of_eq rfl
  cases result with
  | none => cases fits
  | immediate n => exact .single rfl
  | frame v offset | data v base displacement => exact loaded _ (Operand.ne_base_of_fits (accumulator_fits _))
  | register r =>
    simp only [pushResult, pushSlot]
    split
    · rename_i isHigh
      exact isHigh ▸ loaded .al (by decide)
    · exact .single rfl

theorem pushSlot_shifts (size : Nat) (supplies : value.Supplies popped w) :
    (pushSlot value size).error = none ∧ Shifts popped (-2) (pushSlot value size).code := by
  refine ⟨?_, ?_⟩
  · have fits := supplies.fits
    simp only [pushSlot]
    split
    · exact supplies.fine
    · exact supplies.fine
    · split <;> exact supplies.fine
    · exact supplies.fine
    · rename_i missing
      rw [missing] at fits
      cases fits
  · rw [pushSlot_code]
    exact (supplies.level.append (pushResult_shifts size supplies.fits)).of_eq (Int.zero_add _)

theorem arguments_append (first second : List Expr) :
    (arguments (first ++ second)).code = (arguments first).code ++ (arguments second).code := by
  induction first with
  | nil => rfl
  | cons e rest ih => simp only [List.cons_append, arguments, ih, List.append_assoc]

theorem arguments_shifts (supplies : ∀ e ∈ given, ∃ w, (expression e).Supplies popped w) :
    (arguments given).error = none ∧ Shifts popped (-2 * given.length) (arguments given).code := by
  induction given with
  | nil => exact ⟨rfl, .nil⟩
  | cons e rest ih =>
    obtain ⟨w, first⟩ := supplies e (by simp)
    have head := pushSlot_shifts e.ty.size first
    have tail := ih (fun other member => supplies other (by simp [member]))
    simp only [arguments]
    exact ⟨by simp [head.1, tail.1], (head.2.append tail.2).of_eq (by simp; omega)⟩

theorem arguments_singleton (e : Expr) :
    (arguments [e]).code = (expression e).code ++ pushResult (expression e).result e.ty.size := by
  rw [arguments, arguments, List.append_nil, pushSlot_code]

end Lower

open Lower

structure Expr.Lowers (popped : Bytes → Int) (e : Expr) : Prop where
  fine : (expression e).error = none
  level : Shifts popped 0 (expression e).code
  fits : e.ty.IsValue → (expression e).result.fits (.ofSize e.ty.size) = true
  varies : e.isConstant = false → (expression e).result.kind ≠ .immediate
  memory : e.isWritable = true → (expression e).result.isMemory = true

namespace Expr.Lowers

variable {popped : Bytes → Int}

theorem supplies (lowers : e.Lowers popped) (isValue : e.ty.IsValue) :
    (expression e).Supplies popped (.ofSize e.ty.size) :=
  ⟨lowers.fine, lowers.level, lowers.fits isValue⟩

theorem supplies_sized (lowers : e.Lowers popped) (isValue : e.ty.IsValue) (sized : e.ty.size = n) :
    (expression e).Supplies popped (.ofSize n) := sized ▸ lowers.supplies isValue

theorem of_register (sized : e.ty.size = n) (supplies : (expression e).Supplies popped (.ofSize n))
    (isRegister : (expression e).result.kind = .register) (fixed : e.isWritable = false) :
    e.Lowers popped :=
  ⟨supplies.fine, supplies.level, fun _ => sized ▸ supplies.fits, fun _ => by rw [isRegister]; decide,
    fun writable => by rw [fixed] at writable; cases writable⟩

theorem of_memory (supplies : (expression e).Supplies popped (.ofSize e.ty.size))
    (memory : (expression e).result.isMemory = true) : e.Lowers popped :=
  ⟨supplies.fine, supplies.level, fun _ => supplies.fits, fun _ => Operand.kind_ne_immediate memory, fun _ => memory⟩

end Expr.Lowers

namespace Lower

variable {op : Operator}

theorem binary_of_isArithmetic (kind : op.isArithmetic = true) (left right : Lowered) (w : Width)
    (leftUses rightUses : Bool) :
    (∃ instr, binary op left right w leftUses rightUses = twoOperand op instr (operands left right w rightUses)) ∨
      binary op left right w leftUses rightUses = multiplication op (operands left right w rightUses) := by
  cases op with
  | add => exact .inl ⟨.add, rfl⟩
  | subtract => exact .inl ⟨.sub, rfl⟩
  | and => exact .inl ⟨.and, rfl⟩
  | or => exact .inl ⟨.or, rfl⟩
  | xor => exact .inl ⟨.xor, rfl⟩
  | multiply | divide | modulo => exact .inr rfl
  | assign | less | greater | greaterEqual | lessEqual | notEqual | equal | shiftLeft | shiftRight
  | unknown => cases kind

theorem arithmetic_supplies (kind : op.isArithmetic = true) (leftUses rightUses : Bool)
    (leftSupplies : left.Supplies popped w) (rightSupplies : right.Supplies popped w) :
    (binary op left right w leftUses rightUses).Supplies popped w ∧
      (binary op left right w leftUses rightUses).result.kind = .register := by
  rcases binary_of_isArithmetic kind left right w leftUses rightUses with ⟨instr, shape⟩ | shape
  · rw [shape]
    exact twoOperand_supplies rightUses leftSupplies rightSupplies op instr
  · rw [shape]
    exact multiplication_supplies rightUses leftSupplies rightSupplies op

theorem binary_of_isShift (kind : op.isShift = true) (left right : Lowered) (w : Width) (leftUses rightUses : Bool) :
    binary op left right w leftUses rightUses = shift op left right w := by
  simp only [Operator.isShift, Bool.or_eq_true, decide_eq_true_eq] at kind
  rcases kind with rfl | rfl <;> rfl

theorem binary_of_isComparison (kind : op.isComparison = true) (left right : Lowered) (w : Width)
    (leftUses rightUses : Bool) :
    binary op left right w leftUses rightUses = comparison op (operands left right w rightUses) := by
  have noAssign : op ≠ .assign := by
    rintro rfl
    exact absurd kind (by decide)
  simp only [binary, noAssign, kind, ↓reduceIte]

theorem expression_of_constant (constant : e.isConstant = true) :
    expression e = { result := .immediate (e.ty.wrap e.value) } := by
  rw [expression.eq_def]
  simp only [constant, ↓reduceIte]

theorem expression_operation (pos : Position) (op : Operator) (left right : Expr) (ty : Ty) :
    expression (Build.operation pos op left right ty) = binary op (expression left) (expression right)
      (.ofSize left.ty.size) left.usesRegisters right.usesRegisters := rfl

theorem expression_addressOf_deref (pos : Position) (ty : Ty) (info : Info) (displacement : Int)
    (varies : address.isConstant = false) :
    expression (.addressOf { pos, ty, usesRegisters := true } (.deref info address displacement)) =
      dataAddress (expression address) displacement := by
  have unfolded : expression (.addressOf { pos, ty, usesRegisters := true } (.deref info address displacement)) =
      if address.isConstant then { result := .immediate (Ty.int.wrap (address.value + displacement)) }
      else dataAddress (expression address) displacement := rfl
  rw [unfolded, varies]
  rfl

theorem callResult_fits (isValue : ty.IsValue) : (callResult ty).fits (.ofSize ty.size) = true := by
  simp only [callResult]
  split
  · rename_i isByte
    rw [isByte]
    rfl
  · rename_i noByte
    rcases size_cases ty with size | size
    · exact absurd size noByte
    · rw [if_neg isValue.2, size]
      rfl

end Lower

theorem Ty.size_of_isPointer {t : Ty} (pointer : t.isPointer = true) : t.size = 2 := by
  simp only [size]
  split
  · rename_i isByte
    rw [isByte] at pointer
    exact absurd pointer (by decide)
  · rfl

theorem Ty.size_ref (t : Ty) : t.ref.size = 2 := size_of_isPointer (by simp [isPointer, ref])

theorem Ty.size_int {t : Ty} (pointer : t.isPointer = true) : Ty.int.size = t.size := (size_of_isPointer pointer).symm

theorem Expr.Lowers.operation (kind : op.isArithmetic = true) (leftLowers : left.Lowers popped)
    (rightLowers : right.Lowers popped) (leftValue : left.ty.IsValue) (rightValue : right.ty.IsValue)
    (sized : right.ty.size = left.ty.size) (pos : Position) :
    (Build.operation pos op left right left.ty).Lowers popped := by
  obtain ⟨supplies, isRegister⟩ := arithmetic_supplies kind left.usesRegisters right.usesRegisters
    (leftLowers.supplies leftValue) (rightLowers.supplies_sized rightValue sized)
  exact .of_register rfl supplies isRegister rfl

theorem Typed.lowers {popped : Bytes → Int}
    (agrees : ∀ callee, known.callees callee → popped callee.name = 2 * callee.params.length) (typed : Typed known e) :
    e.Lowers popped := by
  induction typed with
  | literal lower upper kind =>
    exact ⟨rfl, .nil, fun _ => rfl, (nomatch ·), (nomatch ·)⟩
  | var found => exact .of_memory ⟨rfl, .nil, decide_eq_true rfl⟩ rfl
  | deref inner pointer pointee moves near ih =>
    rename_i pos address displacement
    have address := ih.supplies_sized (inner.value_of_isPointer pointer) (Ty.size_of_isPointer pointer)
    obtain ⟨supplies, isData⟩ := dereference_supplies (Ty.size _) displacement address
    exact .of_memory supplies (congrArg OperandKind.isMemory isData)
  | step inner writable scalar ih =>
    exact .of_memory (increment_supplies _ _ (ih.supplies scalar)) (ih.memory writable)
  | addressOfVar found => exact .of_register (Ty.size_ref _) (frameAddress_supplies _) rfl rfl
  | addressOfDeref inner pointer pointee moved varies near ih =>
    rename_i pos derefPos address displacement
    have shape := expression_addressOf_deref pos address.ty.deref.ref
      { pos := derefPos, ty := address.ty.deref, writable := true, usesRegisters := true } displacement varies
    refine .of_register (Ty.size_ref _) ?_ (by rw [shape]; rfl) rfl
    rw [shape]
    exact dataAddress_supplies displacement
      (ih.supplies_sized (inner.value_of_isPointer pointer) (Ty.size_of_isPointer pointer))
  | cast inner named varies changes legal ih =>
    rename_i pos ty operand
    have isValue := (Ty.isValue_of_canCast inner.named named changes legal).1
    have converted := conversion_supplies operand.ty ty (ih.supplies isValue) (ih.varies varies)
    exact ⟨converted.1.fine, converted.1.level, fun _ => converted.1.fits, fun _ => converted.2, (nomatch ·)⟩
  | call found types inner ih =>
    rename_i pos callee given
    have value (e : Expr) (member : e ∈ given) : e.ty.IsValue :=
      known.params_value found e.ty (types ▸ List.mem_map_of_mem member)
    have pushed := arguments_shifts (fun e member => ⟨_, (ih e member).supplies (value e member)⟩)
    have count : given.length = callee.params.length := by
      simpa [Signature.paramTypes] using congrArg List.length types
    refine ⟨pushed.1, ?_, callResult_fits, fun _ => ?_, (nomatch ·)⟩
    · refine (pushed.2.append (.single rfl)).of_eq ?_
      simp only [Instr.stackEffect, agrees callee found, count]
      omega
    · change (callResult callee.returns).kind ≠ .immediate
      simp only [callResult]
      repeat' split
      all_goals decide
  | assign leftTyped rightTyped writable same leftLowers rightLowers =>
    have isValue := leftTyped.value_of_writable writable
    have memory := leftLowers.memory writable
    exact .of_memory (assignment_supplies _ (leftLowers.supplies isValue)
      (rightLowers.supplies_sized (same ▸ isValue) (congrArg Ty.size same)) memory) memory
  | arithmetic leftTyped rightTyped kind number same varies leftLowers rightLowers =>
    have isValue := Ty.isValue_of_isArithmetic number
    exact .operation kind leftLowers rightLowers isValue (same ▸ isValue) (congrArg Ty.size same) _
  | pointer leftTyped rightTyped kind pointer offset varies leftLowers rightLowers =>
    exact .operation (Operator.isArithmetic_of_isAdditive kind) leftLowers rightLowers
      (leftTyped.value_of_isPointer pointer) (by rw [offset]; decide) (by rw [offset, Ty.size_int pointer]) _
  | shift leftTyped rightTyped kind number count varies fixed leftLowers rightLowers =>
    rename_i pos op left right
    have supplies := shift_supplies op (leftLowers.supplies (Ty.isValue_of_isArithmetic number))
      (expression_of_constant fixed)
    have shape := binary_of_isShift kind (expression left) (expression right)
      (.ofSize left.ty.size) left.usesRegisters right.usesRegisters
    rw [← shape] at supplies
    refine .of_register rfl supplies ?_ rfl
    rw [expression_operation, shape]
    simp only [Lower.shift, expression_of_constant fixed, Operand.kind, ne_eq, not_true_eq_false,
      ↓reduceIte, register]
  | comparison leftTyped rightTyped kind listed number same varies leftLowers rightLowers =>
    rename_i pos op left right
    have isValue := Ty.isValue_of_isArithmetic number
    have level := comparison_level right.usesRegisters (leftLowers.supplies isValue)
      (rightLowers.supplies_sized (same ▸ isValue) (congrArg Ty.size same)) op
    have shape := binary_of_isComparison kind (expression left) (expression right)
      (.ofSize left.ty.size) left.usesRegisters right.usesRegisters
    rw [← shape] at level
    refine ⟨level.1, level.2, fun isFlags => absurd rfl isFlags.1.ne_flags, fun _ => ?_, (nomatch ·)⟩
    rw [expression_operation, shape]
    exact (show OperandKind.none ≠ .immediate by decide)

theorem Typed.lowers_of_quiet {e : Expr} (typed : Typed known e) (quiet : e.calls = []) (popped : Bytes → Int) :
    e.Lowers popped :=
  (typed.silent quiet).lowers fun _ found => False.elim found

end Cb
