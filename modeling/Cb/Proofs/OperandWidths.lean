import Cb.Node
import Cb.Proofs.ExpressionCode

/-! Operands that go together: in the code of typed trees no operand is missing, the operands of an
instruction have one width, and no two of them are in memory. -/

namespace Cb

def Operand.hasWidth (w : Width) (o : Operand) : Bool := o.width? = some w || o.kind = .immediate

def conditionalJumps : List Bytes := ["je", "jne", "ja", "jae", "jb", "jbe"]

theorem jumpName_mem (kind : op.isComparison = true) (listed : op ∈ Operator.all) :
    jumpName op ∈ conditionalJumps := by
  cases op <;> first | decide | cases kind | simp [Operator.all] at listed

def Instr.isSound : Instr → Bool
  | .mov target source | .arithmetic _ target source =>
    target.width?.any fun w => source.hasWidth w && !(target.isMemory && source.isMemory)
  | .shiftLeft target count | .shiftRight target count => target.width?.isSome && count.kind = .immediate
  | .mul operand | .div operand | .inc operand | .dec operand => operand.width?.isSome
  | .push source => source.hasWidth .word
  | .pop target => target.width? = some .word
  | .pushByte source => source.hasWidth .byte && !source.isMemory
  | .popByte target => target.width? = some .byte && !target.isMemory
  | .jumpIf comparison _ => jumpName comparison ∈ conditionalJumps
  | .popBytes _ | .call _ | .jump _ | .ret _ => true

def Instr.operands : Instr → List Operand
  | .mov target source | .arithmetic _ target source | .shiftLeft target source | .shiftRight target source =>
    [target, source]
  | .mul operand | .div operand | .inc operand | .dec operand | .push operand | .pop operand | .pushByte operand
  | .popByte operand => [operand]
  | .popBytes count => [.immediate count]
  | .ret bytes => if bytes = 0 then [] else [.immediate bytes]
  | .call _ | .jump _ | .jumpIf _ _ => []

namespace Operand

variable {o : Operand}

theorem width?_of_fits (fits : o.fits w = true) (varies : o.kind ≠ .immediate) : o.width? = some w := by
  cases o with
  | none => cases fits
  | immediate => exact absurd rfl varies
  | frame v offset | data v base displacement => exact congrArg some (of_decide_eq_true fits)
  | register r => exact congrArg some (Lower.isGeneral_of_fits fits).2

theorem hasWidth_of_fits (fits : o.fits w = true) : o.hasWidth w = true := by
  by_cases constant : o.kind = .immediate
  · simp [hasWidth, constant]
  · simp [hasWidth, width?_of_fits fits constant]

theorem eq_register (isRegister : o.kind = .register) : ∃ r, o = .register r := by
  cases o with
  | register r => exact ⟨r, rfl⟩
  | none | immediate | frame | data => cases isRegister

end Operand

open Operand

theorem Register.width_sized (letter : Letter) (w : Width) : (Register.sized letter w).width = w := by
  cases w <;> rfl

structure Limits where
  raw : Bool
  numbers : Nat → Prop
  callees : Bytes → Prop

def Operand.Shows (p : Limits) : Operand → Prop
  | .none | .register _ => True
  | .immediate n | .frame _ n | .data _ .bx n => p.numbers n.natAbs
  | .data _ (.address value) displacement => p.numbers value.natAbs ∧ p.numbers displacement.natAbs

structure Operand.Reads (p : Limits) (w : Width) (o : Operand) : Prop where
  wide : o.hasWidth w = true
  shows : o.Shows p

structure Instr.IsFormed (p : Limits) (i : Instr) : Prop where
  sound : i.isSound = true
  shows : ∀ o ∈ i.operands, o.Shows p
  calls : ∀ name, i = .call name → p.callees name

def Formed (p : Limits) (code : List Instr) : Prop := ∀ i ∈ code, i.IsFormed p

structure Lowered.IsFormed (p : Limits) (l : Lowered) : Prop where
  code : Formed p l.code
  result : l.result.Shows p

namespace Formed

variable {p : Limits} {first second : List Instr} {r : Register} {o target : Operand} {w : Width}

theorem nil : Formed p [] := by simp [Formed]

theorem single (sound : i.isSound = true) (shows : ∀ o ∈ i.operands, o.Shows p)
    (calls : ∀ name, i = .call name → p.callees name := by rintro _ ⟨⟩) : Formed p [i] :=
  List.forall_mem_singleton.mpr ⟨sound, shows, calls⟩

theorem append (head : Formed p first) (tail : Formed p second) : Formed p (first ++ second) :=
  List.forall_mem_append.mpr ⟨head, tail⟩

theorem mov (reads : o.Reads p r.width) : Formed p [.mov (.register r) o] :=
  .single (by simpa [Instr.isSound, Operand.width?, Operand.isMemory, Operand.kind, OperandKind.isMemory] using reads.wide)
    (by simpa [Instr.operands, Operand.Shows] using reads.shows)

theorem arithmetic (reads : o.Reads p r.width) : Formed p [.arithmetic op (.register r) o] :=
  .single (by simpa [Instr.isSound, Operand.width?, Operand.isMemory, Operand.kind, OperandKind.isMemory] using reads.wide)
    (by simpa [Instr.operands, Operand.Shows] using reads.shows)

theorem store (place : target.fits w = true) (shows : target.Shows p) (memory : target.isMemory = true)
    (reads : o.Reads p w) (apart : o.isMemory = false) : Formed p [.mov target o] := by
  refine .single ?_ (by simpa [Instr.operands] using ⟨shows, reads.shows⟩)
  simp [Instr.isSound, width?_of_fits place (kind_ne_immediate memory), reads.wide, apart]

end Formed

theorem Operand.reads_register (p : Limits) (wide : r.width = w) : Reads p w (.register r) :=
  ⟨by simp [hasWidth, width?, wide], trivial⟩

namespace Lower

variable {p : Limits} {w : Width} {left right operand : Lowered} {o : Operand} {r : Register}

theorem save_formed (reads : o.Reads p w) (volatile : o.isVolatile = true) : Formed p (save w o) := by
  cases w with
  | word => exact .single reads.wide (by simpa [Instr.operands] using reads.shows)
  | byte =>
    simp only [save]
    split
    · exact (Formed.mov (r := .al) reads).append (.single rfl (by simp [Instr.operands, register, Operand.Shows]))
    · rename_i noData
      refine .single ?_ (by simpa [Instr.operands] using reads.shows)
      simp only [Operand.isVolatile, Bool.or_eq_true, decide_eq_true_eq, noData, or_false] at volatile
      simp [Instr.isSound, reads.wide, Operand.isMemory, OperandKind.isMemory, volatile]

theorem load_formed (wide : r.width = w) : Formed p [load w (register r)] := by
  subst wide
  refine .single ?_ ?_ ?_
  · cases wide : r.width <;> simp [load, register, Instr.isSound, Operand.width?, wide, Operand.isMemory, Operand.kind,
      OperandKind.isMemory]
  · cases r.width <;> simp [load, Instr.operands, register, Operand.Shows]
  · cases r.width <;> simp [load]

theorem move_formed (reads : o.Reads p w) (wide : r.width = w) :
    Formed p (if o = register r then [] else [.mov (register r) o]) := by
  split
  · exact .nil
  · exact .mov (wide ▸ reads)

theorem clear_formed (zero : p.numbers 0) (r : Register) : Formed p [.mov (register r) (.immediate 0)] :=
  .mov ⟨Bool.or_eq_true_iff.mpr (Or.inr rfl), zero⟩

theorem fetchLeft_formed {o : Operands} (wide : target.width = o.width) (fits : o.left.fits o.width = true)
    (shows : o.left.Shows p) :
    Formed p (fetchLeft o target).1 ∧ ∃ r : Register, (fetchLeft o target).2 = .register r ∧ r.width = o.width := by
  simp only [fetchLeft]
  split
  · exact ⟨load_formed wide, target, rfl, wide⟩
  · split
    · rename_i isRegister
      obtain ⟨r, same⟩ := eq_register isRegister
      exact ⟨.nil, r, same, (isGeneral_of_fits (same ▸ fits)).2⟩
    · exact ⟨.mov (wide ▸ ⟨hasWidth_of_fits fits, shows⟩), target, rfl, wide⟩

theorem multiplier_formed (fits : o.fits w = true) (shows : o.Shows p) :
    Formed p (multiplier w o).1 ∧ (multiplier w o).2.width?.isSome = true ∧ (multiplier w o).2.Shows p := by
  simp only [multiplier]
  split
  · rename_i memory
    exact ⟨.nil, by rw [width?_of_fits fits (kind_ne_immediate memory)]; rfl, shows⟩
  · exact ⟨move_formed ⟨hasWidth_of_fits fits, shows⟩ (Register.width_sized _ w), rfl, trivial⟩

theorem shift_formed (op : Operator) (fits : left.result.fits w = true) (formed : left.IsFormed p)
    (fixed : right = { result := .immediate count }) (near : p.numbers count.natAbs) :
    (shift op left right w).IsFormed p := by
  subst fixed
  have moved := move_formed ⟨hasWidth_of_fits fits, formed.result⟩ (Register.width_sized .a w)
  simp only [shift, Operand.kind, ne_eq, not_true_eq_false, ↓reduceIte, List.append_nil]
  refine ⟨(formed.code.append moved).append ?_, trivial⟩
  split <;> exact .single rfl (by simp [Instr.operands, register, Operand.Shows, near])

section

variable (uses : Bool) (leftFits : left.result.fits w = true) (rightFits : right.result.fits w = true)
  (leftFormed : left.IsFormed p) (rightFormed : right.IsFormed p)

include leftFits rightFits leftFormed rightFormed

omit rightFits in
theorem operands_formed : Formed p (operands left right w uses).code := by
  refine (leftFormed.code.append ?_).append rightFormed.code
  split
  · rename_i saved
    exact save_formed ⟨hasWidth_of_fits leftFits, leftFormed.result⟩ (Bool.and_eq_true_iff.mp saved).1
  · exact .nil

theorem twoOperand_formed (op : Operator) (instr : Arithmetic) :
    (twoOperand op instr (operands left right w uses)).IsFormed p := by
  have computed := operands_formed uses leftFits leftFormed rightFormed
  rcases twoOperand_shape op instr (o := operands left right w uses) rightFits with ⟨isRegister, -, -, shape⟩ | shape
  · rw [shape]
    obtain ⟨r, same⟩ := eq_register isRegister
    have wide : r.width = w := (isGeneral_of_fits (show (Operand.register r).fits w = true from same ▸ rightFits)).2
    refine ⟨computed.append ?_, rightFormed.result⟩
    rw [same]
    exact .arithmetic (wide.symm ▸ ⟨hasWidth_of_fits leftFits, leftFormed.result⟩)
  · obtain ⟨fetched, r, inRegister, wide⟩ := fetchLeft_formed (o := operands left right w uses)
      (isGeneral_of_fits (Operands.taker_fits _)).2 leftFits leftFormed.result
    rw [shape, inRegister]
    exact ⟨(computed.append fetched).append
      (.arithmetic (wide ▸ ⟨hasWidth_of_fits rightFits, rightFormed.result⟩)), trivial⟩

theorem multiplication_formed (zero : p.numbers 0) (op : Operator) : (multiplication op (operands left right w uses)).IsFormed p := by
  have computed := operands_formed uses leftFits leftFormed rightFormed
  obtain ⟨moved, present, shows⟩ := multiplier_formed rightFits rightFormed.result
  have wide : (accumulator w).width = w := Register.width_sized _ w
  have fetched : Formed p (if (operands left right w uses).saved then [load w (register (accumulator w))]
      else if (operands left right w uses).left = register (accumulator w) then []
      else [.mov (register (accumulator w)) (operands left right w uses).left]) := by
    split
    · exact load_formed wide
    · exact move_formed ⟨hasWidth_of_fits leftFits, leftFormed.result⟩ wide
  have ready := (computed.append moved).append fetched
  simp only [multiplication]
  split
  · exact ⟨computed, trivial⟩
  · split
    · exact ⟨ready.append (.single present (List.forall_mem_singleton.mpr shows)), trivial⟩
    · refine ⟨ready.append ((clear_formed zero _).append (.single present (List.forall_mem_singleton.mpr shows))), ?_⟩
      dsimp only
      split <;> trivial

theorem arithmetic_formed (zero : p.numbers 0) (kind : op.isArithmetic = true) (leftUses : Bool) :
    (binary op left right w leftUses uses).IsFormed p := by
  rcases binary_of_isArithmetic kind left right w leftUses uses with ⟨instr, shape⟩ | shape
  · rw [shape]
    exact twoOperand_formed uses leftFits rightFits leftFormed rightFormed op instr
  · rw [shape]
    exact multiplication_formed uses leftFits rightFits leftFormed rightFormed zero op

theorem assignment_formed (memory : left.result.isMemory = true) : (assignment left right w uses).IsFormed p := by
  have stored {o : Operand} (reads : o.Reads p w) (apart : o.isMemory = false) : Formed p [.mov left.result o] :=
    .store leftFits leftFormed.result memory reads apart
  have rightReads : right.result.Reads p w := ⟨hasWidth_of_fits rightFits, rightFormed.result⟩
  have wide : (accumulator w).width = w := Register.width_sized _ w
  refine ⟨((rightFormed.code.append ?_).append leftFormed.code).append ?_, leftFormed.result⟩
  · split
    · rename_i saved
      exact save_formed rightReads (Bool.and_eq_true_iff.mp saved).1
    · exact .nil
  · split
    · cases w with
      | byte =>
        rw [if_pos (by simp [kind_ne_register memory])]
        exact (load_formed (r := .al) rfl).append (stored (reads_register p rfl) rfl)
      | word =>
        refine .single ?_ (List.forall_mem_singleton.mpr leftFormed.result)
        simp [load, Instr.isSound, width?_of_fits leftFits (kind_ne_immediate memory)]
    · split
      · exact (Formed.mov (wide.symm ▸ rightReads)).append (stored (reads_register p wide) rfl)
      · rename_i apart
        exact stored rightReads (by simpa [memory] using apart)

end

theorem dereference_formed (size : Nat) (fits : operand.result.fits .word = true) (formed : operand.IsFormed p)
    {displacement : Int} (near : p.numbers displacement.natAbs) :
    (dereference operand size displacement).IsFormed p := by
  rcases dereference_cases size displacement fits with ⟨value, isImmediate, shape⟩ | shape
  · have shows := formed.result
    rw [isImmediate] at shows
    rw [shape]
    exact ⟨formed.code, shows, near⟩
  · rw [shape]
    exact ⟨formed.code.append (move_formed ⟨hasWidth_of_fits fits, formed.result⟩ rfl), near⟩

theorem increment_formed (small : ∀ n ≤ 65535, p.numbers n) (ty : Ty) (down : Bool) (fits : operand.result.fits w = true)
    (memory : operand.result.isMemory = true) (formed : operand.IsFormed p) :
    (increment operand ty down).IsFormed p := by
  have width := width?_of_fits fits (kind_ne_immediate memory)
  have stride : p.numbers (ty.deref.size : Int).natAbs := small _ (by rcases size_cases ty.deref with one | two <;> omega)
  refine ⟨formed.code.append ?_, formed.result⟩
  split
  · split <;> exact .single (by simp [Instr.isSound, width]) (by simpa [Instr.operands] using formed.result)
  · refine .single ?_ (by simpa [Instr.operands] using ⟨formed.result, stride⟩)
    simp [Instr.isSound, width, Operand.hasWidth, Operand.isMemory, Operand.kind, OperandKind.isMemory]

theorem moveAddress_formed {n : Int} (near : p.numbers n.natAbs) : Formed p (moveAddress n) := by
  simp only [moveAddress]
  split
  · exact .nil
  · split <;> exact .arithmetic ⟨rfl, by simpa [Operand.Shows] using near⟩

theorem dataAddress_formed (fits : operand.result.fits .word = true) (formed : operand.IsFormed p)
    {displacement : Int} (near : p.numbers displacement.natAbs) : (dataAddress operand displacement).IsFormed p :=
  ⟨(formed.code.append (move_formed ⟨hasWidth_of_fits fits, formed.result⟩ rfl)).append
    (moveAddress_formed near), trivial⟩

theorem conversion_formed (zero : p.numbers 0) (source target : Ty) (fits : operand.result.fits (.ofSize source.size) = true)
    (formed : operand.IsFormed p) : (conversion operand source.size target.size).IsFormed p := by
  simp only [conversion]
  split
  · exact formed
  · rename_i changes
    split
    · refine ⟨formed.code, ?_⟩
      have shows := formed.result
      cases shape : operand.result with
      | none | immediate | frame | register =>
        rw [shape] at shows
        exact shows
      | data v base displacement =>
        rw [shape] at shows
        cases base <;> exact shows
    · rename_i widens
      have byte : source.size = 1 := by
        rcases size_cases source with one | two
        · exact one
        · rcases size_cases target with one | same <;> omega
      rw [byte] at fits
      have moved : Formed p [.mov (register .al) operand.result, .mov (register .ah) (.immediate 0)] :=
        (Formed.mov (r := .al) ⟨hasWidth_of_fits fits, formed.result⟩).append (clear_formed zero .ah)
      split
      · exact ⟨formed.code.append moved, trivial⟩
      · exact ⟨formed.code.append moved, trivial⟩
      · split
        · exact ⟨formed.code.append ((Formed.mov (r := .al) (reads_register p (r := .ah) rfl)).append (clear_formed zero .ah)), trivial⟩
        · exact ⟨formed.code.append (clear_formed zero _), trivial⟩
      · exact ⟨formed.code, trivial⟩

theorem pushSlot_formed (ty : Ty) (fits : operand.result.fits (.ofSize ty.size) = true)
    (formed : operand.IsFormed p) : Formed p (pushSlot operand ty.size).code := by
  have shows := formed.result
  have wide : (accumulator (.ofSize ty.size)).width = .ofSize ty.size := Register.width_sized _ _
  have pushed (r : Register) (wide : r.width = .word) : Formed p [.push (register r)] :=
    .single (reads_register p wide).wide (by simp [Instr.operands, register, Operand.Shows])
  rw [pushSlot_code]
  refine formed.code.append ?_
  cases shape : operand.result with
  | none =>
    rw [shape] at fits
    cases fits
  | immediate n =>
    rw [shape] at shows
    exact .single rfl (by simpa [Instr.operands] using shows)
  | frame | data =>
    rw [shape] at fits shows
    exact (Formed.mov (wide.symm ▸ ⟨hasWidth_of_fits fits, shows⟩)).append (pushed .ax rfl)
  | register r =>
    rw [shape] at fits
    simp only [pushResult, pushSlot]
    split
    · exact (Formed.mov (r := .al) (reads_register p (r := .ah) rfl)).append (pushed .ax rfl)
    · obtain ⟨general, -⟩ := isGeneral_of_fits fits
      cases r with
      | general letter part => exact pushed _ rfl
      | base | stack => cases general

theorem arguments_formed (fits : ∀ e ∈ given, (expression e).result.fits (.ofSize e.ty.size) = true)
    (formed : ∀ e ∈ given, (expression e).IsFormed p) : Formed p (arguments given).code := by
  induction given with
  | nil => exact .nil
  | cons e rest ih =>
    rw [List.forall_mem_cons] at fits formed
    exact (pushSlot_formed e.ty fits.1 formed.1).append (ih fits.2 formed.2)

end Lower

theorem Ty.wrap_le (t : Ty) (value : Int) : (t.wrap value).natAbs ≤ 65535 := by
  have lower := t.wrap_lower value
  have upper := t.wrap_upper value
  have bits : Nat.pow 2 t.bits ≤ 65536 := by
    simp only [Ty.bits, Ty.size]
    split <;> decide
  omega

theorem Expr.calls_subset_callsAll {given : List Expr} (member : e ∈ given) : e.calls ⊆ callsAll given := by
  induction given with
  | nil => exact absurd member List.not_mem_nil
  | cons first rest ih =>
    rcases List.mem_cons.mp member with rfl | later
    · exact List.subset_append_left ..
    · exact List.subset_append_of_subset_right _ (ih later)

structure Limits.Covers (p : Limits) (known : Vocabulary) : Prop where
  small : ∀ n ≤ 65535, p.numbers n
  near : ∀ {name ty offset}, known.names name ty offset → p.numbers offset.natAbs

section

variable {known : Vocabulary} {popped : Bytes → Int} {p : Limits}
  (agrees : ∀ callee, known.callees callee → popped callee.name = 2 * callee.params.length)

include agrees

theorem Typed.fits_sized (typed : Typed known e) (isValue : e.ty.IsValue) (sized : e.ty.size = n) :
    (Lower.expression e).result.fits (.ofSize n) = true := sized ▸ (typed.lowers agrees).fits isValue

theorem Typed.formed (covers : p.Covers known) (typed : Typed known e) (called : ∀ name ∈ e.calls, p.callees name) :
    (Lower.expression e).IsFormed p := by
  induction typed with
  | literal => exact ⟨.nil, covers.small _ (Ty.wrap_le _ _)⟩
  | var found => exact ⟨.nil, covers.near found⟩
  | deref inner pointer pointee moves close ih =>
    exact Lower.dereference_formed _
      (inner.fits_sized agrees (inner.value_of_isPointer pointer) (Ty.size_of_isPointer pointer)) (ih called) (covers.small _ close)
  | step inner writable scalar ih =>
    have lowers := inner.lowers agrees
    exact Lower.increment_formed covers.small _ _ (lowers.fits scalar) (lowers.memory writable) (ih called)
  | addressOfVar found =>
    have moved := Lower.moveAddress_formed (covers.near found)
    exact ⟨(Formed.mov (r := .dx) (reads_register p (r := .base) rfl)).append moved, trivial⟩
  | addressOfDeref inner pointer pointee moved varies close ih =>
    rw [Lower.expression_addressOf_deref _ _ _ _ varies]
    exact Lower.dataAddress_formed
      (inner.fits_sized agrees (inner.value_of_isPointer pointer) (Ty.size_of_isPointer pointer)) (ih called) (covers.small _ close)
  | cast inner named varies changes legal ih =>
    have isValue := (Ty.isValue_of_canCast inner.named named changes legal).1
    exact Lower.conversion_formed (covers.small 0 (by decide)) _ _ ((inner.lowers agrees).fits isValue) (ih called)
  | call found types inner ih =>
    rename_i pos callee given
    have fits (e : Expr) (member : e ∈ given) : (Lower.expression e).result.fits (.ofSize e.ty.size) = true :=
      ((inner e member).lowers agrees).fits (known.params_value found e.ty (types ▸ List.mem_map_of_mem member))
    obtain ⟨own, rest⟩ := List.forall_mem_cons.mp called
    have formed := Lower.arguments_formed fits fun e member =>
      ih e member fun name isCalled => rest name (Expr.calls_subset_callsAll member isCalled)
    have call : Formed p [.call callee.name] := .single rfl (by simp [Instr.operands]) fun _ same => Instr.call.inj same ▸ own
    refine ⟨formed.append call, ?_⟩
    change (Lower.callResult callee.returns).Shows p
    simp only [Lower.callResult]
    repeat' split
    all_goals trivial
  | assign leftTyped rightTyped writable same leftIh rightIh =>
    obtain ⟨leftCalled, rightCalled⟩ := List.forall_mem_append.mp called
    have isValue := leftTyped.value_of_writable writable
    have leftLowers := leftTyped.lowers agrees
    exact Lower.assignment_formed _ (leftLowers.fits isValue)
      (rightTyped.fits_sized agrees (same ▸ isValue) (congrArg Ty.size same)) (leftIh leftCalled) (rightIh rightCalled) (leftLowers.memory writable)
  | arithmetic leftTyped rightTyped kind number same varies leftIh rightIh =>
    obtain ⟨leftCalled, rightCalled⟩ := List.forall_mem_append.mp called
    have isValue := Ty.isValue_of_isArithmetic number
    exact Lower.arithmetic_formed _ ((leftTyped.lowers agrees).fits isValue)
      (rightTyped.fits_sized agrees (same ▸ isValue) (congrArg Ty.size same)) (leftIh leftCalled) (rightIh rightCalled) (covers.small 0 (by decide)) kind _
  | pointer leftTyped rightTyped kind pointer offset varies leftIh rightIh =>
    obtain ⟨leftCalled, rightCalled⟩ := List.forall_mem_append.mp called
    exact Lower.arithmetic_formed _ ((leftTyped.lowers agrees).fits (leftTyped.value_of_isPointer pointer))
      (rightTyped.fits_sized agrees (by rw [offset]; decide) (by rw [offset, Ty.size_int pointer])) (leftIh leftCalled) (rightIh rightCalled)
      (covers.small 0 (by decide)) (Operator.isArithmetic_of_isAdditive kind) _
  | shift leftTyped rightTyped kind number count varies fixed leftIh rightIh =>
    rw [Lower.expression_operation, Lower.binary_of_isShift kind]
    exact Lower.shift_formed _ ((leftTyped.lowers agrees).fits (Ty.isValue_of_isArithmetic number))
      (leftIh (List.forall_mem_append.mp called).1)
      (Lower.expression_of_constant fixed) (covers.small _ (Ty.wrap_le _ _))
  | comparison leftTyped rightTyped kind listed number same varies leftIh rightIh =>
    obtain ⟨leftCalled, rightCalled⟩ := List.forall_mem_append.mp called
    have isValue := Ty.isValue_of_isArithmetic number
    rw [Lower.expression_operation, Lower.binary_of_isComparison kind]
    exact ⟨(Lower.twoOperand_formed _ ((leftTyped.lowers agrees).fits isValue)
      (rightTyped.fits_sized agrees (same ▸ isValue) (congrArg Ty.size same)) (leftIh leftCalled) (rightIh rightCalled) _ _).code, trivial⟩

namespace Lower

variable (covers : p.Covers known)

include covers

theorem conditionalJump_formed (typed : ∀ e ∈ condition, Typed known e ∧ e.ty = .flags)
    (called : ∀ name ∈ callsOptional condition, p.callees name) (target : Label) :
    Formed p (conditionalJump condition target).1 := by
  have jumped : Formed p [.jump target] := .single rfl (by simp [Instr.operands])
  cases condition with
  | none => exact jumped
  | some e =>
    obtain ⟨isTyped, isFlags⟩ := typed e rfl
    rcases isTyped.constant_or_comparison isFlags with constant |
      ⟨pos, op, left, right, rfl, leftTyped, rightTyped, kind, listed, number, same⟩
    · simp only [conditionalJump, constant, ↓reduceIte]
      split
      · exact jumped
      · exact .nil
    · have formed := (isTyped.formed agrees covers called).code
      rw [expression_operation, binary_of_isComparison kind] at formed
      have shape : (conditionalJump (some (Build.operation pos op left right .flags)) target).1 =
          (comparison op (operands (expression left) (expression right) (.ofSize left.ty.size)
            right.usesRegisters)).code ++ [.jumpIf op target] := congrArg Prod.fst (if_pos kind)
      rw [shape]
      exact formed.append (.single (decide_eq_true (jumpName_mem kind listed)) (by simp [Instr.operands]))

theorem returnValue_formed (typed : Typed known e) (isValue : e.ty.IsValue) (called : ∀ name ∈ e.calls, p.callees name) :
    Formed p (returnValue e).code := by
  have formed := typed.formed agrees covers called
  simp only [returnValue]
  split
  · exact formed.code
  · refine formed.code.append (.mov ?_)
    rw [accumulator, Register.width_sized]
    exact ⟨hasWidth_of_fits ((typed.lowers agrees).fits isValue), formed.result⟩

end Lower

end

end Cb
