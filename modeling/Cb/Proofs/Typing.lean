import Cb.Expr.Build

/-! Trees that the checked constructors build, and the typing rules that every such tree keeps. -/

namespace Cb

def Ty.IsNamed (t : Ty) : Prop := t.base = .int ∨ t.base = .byte ∨ t.base = .void

def Ty.IsValue (t : Ty) : Prop := t.IsNamed ∧ t ≠ .void

instance (t : Ty) : Decidable t.IsNamed := inferInstanceAs (Decidable (_ ∨ _ ∨ _))

instance (t : Ty) : Decidable t.IsValue := inferInstanceAs (Decidable (_ ∧ _))

/-- What trees are made of: variables with their types and offsets, and functions to call. -/
structure Vocabulary where
  names : Bytes → Ty → Int → Prop
  callees : Signature → Prop
  names_value : ∀ {name ty offset}, names name ty offset → ty.IsValue
  params_value : ∀ {callee}, callees callee → ∀ ty ∈ callee.paramTypes, ty.IsValue
  returns_named : ∀ {callee}, callees callee → callee.returns.IsNamed

/-- Trees that the constructors return, starting from literals and variables. Every node may choose
its own scaling. -/
inductive Built (known : Vocabulary) : Expr → Prop
  | literal (pos : Position) (value : Int) {ty : Ty} (isValue : ty.IsValue) :
      Built known (Build.literal pos value ty)
  | var (pos : Position) {name : Bytes} {ty : Ty} {offset : Int} (found : known.names name ty offset) :
      Built known (Build.var pos name ty offset)
  | cast {e result : Expr} {target : Ty} (inner : Built known e) (named : target.IsNamed)
      (built : Build.cast e target = .ok result) : Built known result
  | implicit {e result : Expr} {target : Ty} (inner : Built known e) (named : target.IsNamed)
      (built : Build.implicit e target = .ok result) : Built known result
  | binary {scaling : Scaling} {pos : Position} {op : Operator} {left right result : Expr}
      (leftBuilt : Built known left) (rightBuilt : Built known right) (listed : op ∈ Operator.all)
      (built : Build.binary scaling pos op left right = .ok result) : Built known result
  | deref {pos : Position} {address result : Expr} (inner : Built known address)
      (built : Build.deref pos address = .ok result) : Built known result
  | index {scaling : Scaling} {pos : Position} {base index result : Expr} (baseBuilt : Built known base)
      (indexBuilt : Built known index) (built : Build.index scaling pos base index = .ok result) :
      Built known result
  | step {pos : Position} {target result : Expr} {down : Bool} (inner : Built known target)
      (built : Build.step pos target down = .ok result) : Built known result
  | addressOf {pos : Position} {target result : Expr} (inner : Built known target)
      (built : Build.addressOf pos target = .ok result) : Built known result
  | call {pos : Position} {callee : Signature} {given : List Expr} {result : Expr}
      (found : known.callees callee) (inner : ∀ e ∈ given, Built known e)
      (built : Build.call pos callee given = .ok result) : Built known result

namespace Operator

def isArithmetic (op : Operator) : Bool :=
  op = .add || op = .subtract || op = .multiply || op = .divide || op = .modulo
    || op = .or || op = .and || op = .xor

def isShift (op : Operator) : Bool := op = .shiftLeft || op = .shiftRight

def isAdditive (op : Operator) : Bool := op = .add || op = .subtract

theorem isArithmetic_of_isAdditive {op : Operator} (additive : op.isAdditive = true) : op.isArithmetic = true := by
  simp only [isAdditive, Bool.or_eq_true, decide_eq_true_eq] at additive
  rcases additive with rfl | rfl <;> rfl

end Operator

/-- The typing rules. Every node carries exactly the attributes that its parts give it. -/
inductive Typed (known : Vocabulary) : Expr → Prop
  | literal {pos : Position} {ty : Ty} {value : Int} (lower : 0 ≤ value) (upper : value < Nat.pow 2 ty.bits)
      (kind : ty.IsValue ∨ (ty = .flags ∧ value ≤ 1)) :
      Typed known (.literal { pos, ty, constant := true, value })
  | var {pos : Position} {name : Bytes} {ty : Ty} {offset : Int} (found : known.names name ty offset) :
      Typed known (.var { pos, ty, writable := true } name offset)
  | deref {pos : Position} {address : Expr} {displacement : Int} (inner : Typed known address)
      (pointer : address.ty.isPointer = true) (pointee : address.ty.deref ≠ .void)
      (moves : displacement ≠ 0 → address.isConstant = false) (near : displacement.natAbs ≤ 65535) :
      Typed known (.deref { pos, ty := address.ty.deref, writable := true, usesRegisters := true } address
        displacement)
  | step {pos : Position} {target : Expr} {down : Bool} (inner : Typed known target)
      (writable : target.isWritable = true) (scalar : target.ty.IsValue) :
      Typed known (.step { pos, ty := target.ty, writable := true, usesRegisters := target.usesRegisters }
        target down)
  | addressOfVar {pos varPos : Position} {name : Bytes} {ty : Ty} {offset : Int}
      (found : known.names name ty offset) :
      Typed known (.addressOf { pos, ty := ty.ref, usesRegisters := true }
        (.var { pos := varPos, ty, writable := true } name offset))
  | addressOfDeref {pos derefPos : Position} {address : Expr} {displacement : Int} (inner : Typed known address)
      (pointer : address.ty.isPointer = true) (pointee : address.ty.deref ≠ .void) (moved : displacement ≠ 0)
      (varies : address.isConstant = false) (near : displacement.natAbs ≤ 65535) :
      Typed known (.addressOf { pos, ty := address.ty.deref.ref, usesRegisters := true }
        (.deref { pos := derefPos, ty := address.ty.deref, writable := true, usesRegisters := true } address
          displacement))
  | cast {pos : Position} {ty : Ty} {operand : Expr} (inner : Typed known operand) (named : ty.IsNamed)
      (varies : operand.isConstant = false) (changes : operand.ty ≠ ty) (legal : operand.ty.canCast ty = true) :
      Typed known (.cast { pos, ty, usesRegisters := operand.usesRegisters || operand.ty.size < ty.size }
        operand)
  | call {pos : Position} {callee : Signature} {given : List Expr} (found : known.callees callee)
      (types : given.map Expr.ty = callee.paramTypes) (inner : ∀ e ∈ given, Typed known e) :
      Typed known (.call { pos, ty := callee.returns, usesRegisters := true } callee.name given)
  | assign {pos : Position} {left right : Expr} (leftTyped : Typed known left) (rightTyped : Typed known right)
      (writable : left.isWritable = true) (same : right.ty = left.ty) :
      Typed known (Build.operation pos .assign left right left.ty)
  | arithmetic {pos : Position} {op : Operator} {left right : Expr} (leftTyped : Typed known left)
      (rightTyped : Typed known right) (kind : op.isArithmetic = true)
      (number : left.ty.isArithmetic = true) (same : right.ty = left.ty)
      (varies : (left.isConstant && right.isConstant) = false) :
      Typed known (Build.operation pos op left right left.ty)
  | pointer {pos : Position} {op : Operator} {left right : Expr} (leftTyped : Typed known left)
      (rightTyped : Typed known right) (kind : op.isAdditive = true) (pointer : left.ty.isPointer = true)
      (offset : right.ty = .int) (varies : (left.isConstant && right.isConstant) = false) :
      Typed known (Build.operation pos op left right left.ty)
  | shift {pos : Position} {op : Operator} {left right : Expr} (leftTyped : Typed known left)
      (rightTyped : Typed known right) (kind : op.isShift = true) (number : left.ty.isArithmetic = true)
      (count : right.ty.isArithmetic = true) (varies : left.isConstant = false)
      (fixed : right.isConstant = true) : Typed known (Build.operation pos op left right left.ty)
  | comparison {pos : Position} {op : Operator} {left right : Expr} (leftTyped : Typed known left)
      (rightTyped : Typed known right) (kind : op.isComparison = true) (listed : op ∈ Operator.all)
      (number : left.ty.isArithmetic = true) (same : right.ty = left.ty)
      (varies : (left.isConstant && right.isConstant) = false) :
      Typed known (Build.operation pos op left right .flags)

namespace Ty

theorem isArithmetic_iff (t : Ty) : t.isArithmetic = true ↔ t = .int ∨ t = .byte := by
  simp [isArithmetic]

variable {t target : Ty}

theorem canCast_of_isArithmetic (number : t.isArithmetic = true) (targetNumber : target.isArithmetic = true) :
    t.canCast target = true := by
  simp [canCast, number, targetNumber]

theorem canCast_of_convertsTo (converts : t.convertsTo target = true) : t.canCast target = true := by
  simp only [convertsTo, Bool.and_eq_true] at converts
  exact converts.1

theorem isPointer_of_isArithmetic (number : t.isArithmetic = true) : t.isPointer = false := by
  rcases (isArithmetic_iff t).mp number with rfl | rfl <;> rfl

theorem promote_isArithmetic (a b : Ty) : (promote a b).isArithmetic = true := by
  simp only [promote]
  split <;> rfl

theorem isValue_of_isArithmetic (number : t.isArithmetic = true) : t.IsValue := by
  rcases (isArithmetic_iff t).mp number with rfl | rfl
  · exact ⟨.inl rfl, by decide⟩
  · exact ⟨.inr (.inl rfl), by decide⟩

theorem isValue_of_isPointer (named : t.IsNamed) (pointer : t.isPointer = true) : t.IsValue := by
  refine ⟨named, ?_⟩
  rintro rfl
  exact absurd pointer (by decide)

theorem IsNamed.ne_flags (named : t.IsNamed) : t ≠ .flags := by
  rintro rfl
  rcases named with wrong | wrong | wrong <;> cases wrong

theorem isValue_of_canCast (named : t = .flags ∨ t.IsNamed) (targetNamed : target.IsNamed) (changes : t ≠ target)
    (legal : t.canCast target = true) : t.IsValue ∧ target.IsValue := by
  have noVoid : t ≠ .void ∧ target ≠ .void ∧ t ≠ .flags := by
    refine ⟨?_, ?_, ?_⟩
    all_goals
      rintro rfl
      simp only [canCast, decide_eq_false changes] at legal
      simp [isPointer, isArithmetic, void, flags, int, byte] at legal
  exact ⟨⟨named.resolve_left noVoid.2.2, noVoid.1⟩, targetNamed, noVoid.2.1⟩

theorem modulus_pos (t : Ty) : (0 : Int) < Nat.pow 2 t.bits :=
  Int.natCast_pos.mpr (Nat.two_pow_pos t.bits)

theorem wrap_lower (t : Ty) (value : Int) : 0 ≤ t.wrap value :=
  Int.emod_nonneg value (Int.ne_of_gt t.modulus_pos)

theorem wrap_upper (t : Ty) (value : Int) : t.wrap value < Nat.pow 2 t.bits :=
  Int.emod_lt_of_pos value t.modulus_pos

theorem wrap_of_bounds {value : Int} (lower : 0 ≤ value) (upper : value < Nat.pow 2 t.bits) : t.wrap value = value :=
  Int.emod_eq_of_lt lower upper

end Ty

namespace Typed

variable {known : Vocabulary} {e : Expr}

theorem named_or_fixed (typed : Typed known e) : e.ty.IsNamed ∨ (e.ty = .flags ∧ e.isWritable = false) := by
  induction typed with
  | literal _ _ kind =>
    rcases kind with isValue | isFlags
    · exact .inl isValue.1
    · exact .inr ⟨isFlags.1, rfl⟩
  | var found | addressOfVar found => exact .inl (known.names_value found).1
  | deref _ pointer _ _ _ named | addressOfDeref _ pointer _ _ _ _ named =>
    rcases named with named | isFlags
    · exact .inl named
    · rw [isFlags.1] at pointer
      exact absurd pointer (by decide)
  | step _ _ scalar => exact .inl scalar.1
  | cast _ named => exact .inl named
  | call found => exact .inl (known.returns_named found)
  | assign _ _ _ _ named | arithmetic _ _ _ _ _ _ named | pointer _ _ _ _ _ _ named
  | shift _ _ _ _ _ _ _ named =>
    rcases named with named | isFlags
    · exact .inl named
    · exact .inr ⟨isFlags.1, rfl⟩
  | comparison => exact .inr ⟨rfl, rfl⟩

theorem named (typed : Typed known e) : e.ty = .flags ∨ e.ty.IsNamed := by
  rcases typed.named_or_fixed with named | isFlags
  · exact .inr named
  · exact .inl isFlags.1

theorem value_of_isPointer (typed : Typed known e) (pointer : e.ty.isPointer = true) : e.ty.IsValue := by
  rcases typed.named with isFlags | named
  · rw [isFlags] at pointer
    exact absurd pointer (by decide)
  · exact Ty.isValue_of_isPointer named pointer

theorem value_of_writable (typed : Typed known e) (writable : e.isWritable = true) : e.ty.IsValue := by
  cases typed with
  | var found => exact known.names_value found
  | deref inner pointer pointee => exact ⟨(inner.value_of_isPointer pointer).1, pointee⟩
  | step _ _ scalar => exact scalar
  | literal | addressOfVar | addressOfDeref | cast | call | assign | arithmetic | pointer | shift
  | comparison => cases writable

theorem literal_of_isConstant (typed : Typed known e) (constant : e.isConstant = true) :
    ∃ info, e = .literal info ∧ 0 ≤ info.value ∧ info.value < Nat.pow 2 info.ty.bits := by
  cases typed with
  | literal lower upper => exact ⟨_, rfl, lower, upper⟩
  | var | deref | step | addressOfVar | addressOfDeref | cast | call | assign | arithmetic | pointer | shift
  | comparison => cases constant

theorem value_le_of_isConstant (typed : Typed known e) (constant : e.isConstant = true) :
    e.value.natAbs ≤ 65535 := by
  obtain ⟨info, rfl, lower, upper⟩ := typed.literal_of_isConstant constant
  have bits : Nat.pow 2 info.ty.bits ≤ 65536 := by
    simp only [Ty.bits, Ty.size]
    split <;> decide
  change info.value.natAbs ≤ 65535
  omega

end Typed

namespace Build

@[simp] theorem operation_ty (pos : Position) (op : Operator) (left right : Expr) (ty : Ty) :
    (operation pos op left right ty).ty = ty := rfl

theorem literal_typed (known : Vocabulary) (pos : Position) (value : Int) (isValue : ty.IsValue) :
    Typed known (literal pos value ty) :=
  .literal (ty.wrap_lower value) (ty.wrap_upper value) (Or.inl isValue)

@[simp] theorem convert_ty (e : Expr) (target : Ty) : (convert e target).ty = target := by
  simp only [convert]
  split
  · assumption
  · split <;> rfl

@[simp] theorem convert_isConstant (e : Expr) (target : Ty) : (convert e target).isConstant = e.isConstant := by
  simp only [convert]
  split
  · rfl
  · split
    · rename_i constant
      exact constant.symm
    · rename_i varies
      simpa [Expr.isConstant, Expr.info] using varies

variable {known : Vocabulary} {result left right e index : Expr} {pos : Position} {op : Operator} {scaling : Scaling}
  {target : Ty}

theorem convert_typed (typed : Typed known e) (named : target.IsNamed) (legal : e.ty.canCast target = true) :
    Typed known (convert e target) := by
  simp only [convert]
  split
  · exact typed
  · rename_i changes
    split
    · exact literal_typed known _ _ (Ty.isValue_of_canCast typed.named named changes legal).2
    · rename_i varies
      exact .cast typed named (by simpa using varies) changes legal

theorem cast_typed (typed : Typed known e) (named : target.IsNamed) (built : cast e target = .ok result) :
    Typed known result := by
  simp only [cast] at built
  split at built
  · rename_i legal
    cases built
    exact convert_typed typed named legal
  · cases built

theorem implicit_typed (typed : Typed known e) (named : target.IsNamed) (built : implicit e target = .ok result) :
    Typed known result ∧ result.ty = target := by
  simp only [implicit] at built
  split at built
  · rename_i converts
    cases built
    exact ⟨convert_typed typed named (Ty.canCast_of_convertsTo converts), convert_ty e target⟩
  · cases built

theorem assign_shape (built : assign pos left right = .ok result) :
    left.isWritable = true ∧ right.ty.canCast left.ty = true ∧
      result = operation pos .assign left (convert right left.ty) left.ty := by
  simp only [assign] at built
  split at built
  · cases built
  · rename_i writable
    refine ⟨by simpa using writable, ?_⟩
    split at built
    · rename_i same
      cases built
      exact ⟨by simp [Ty.canCast, same], by rw [convert, if_pos same.symm]⟩
    · split at built
      · rename_i converts
        cases built
        exact ⟨Ty.canCast_of_convertsTo converts, rfl⟩
      · cases built

theorem assign_typed (leftTyped : Typed known left) (rightTyped : Typed known right)
    (built : assign pos left right = .ok result) : Typed known result := by
  obtain ⟨writable, legal, rfl⟩ := assign_shape built
  have named := (leftTyped.value_of_writable writable).1
  exact .assign leftTyped (convert_typed rightTyped named legal) writable (convert_ty right left.ty)

theorem shift_typed (leftTyped : Typed known left) (rightTyped : Typed known right) (kind : op.isShift = true)
    (built : shift pos op left right = .ok result) : Typed known result := by
  simp only [shift] at built
  split at built
  · cases built
  · rename_i fixed
    split at built
    · cases built
    · rename_i numbers
      simp only [Bool.or_eq_true, not_or, Bool.not_eq_true', Bool.not_eq_false] at numbers
      split at built
      · cases built
        exact literal_typed known _ _ (Ty.isValue_of_isArithmetic numbers.1)
      · rename_i varies
        cases built
        exact .shift leftTyped rightTyped kind numbers.1 numbers.2 (by simpa using varies) (by simpa using fixed)

theorem promoted_typed (leftTyped : Typed known left) (rightTyped : Typed known right)
    (leftNumber : left.ty.isArithmetic = true) (rightNumber : right.ty.isArithmetic = true) :
    Typed known (convert left (.promote left.ty right.ty)) ∧
      Typed known (convert right (.promote left.ty right.ty)) := by
  have common := Ty.promote_isArithmetic left.ty right.ty
  have named := (Ty.isValue_of_isArithmetic common).1
  exact ⟨convert_typed leftTyped named (Ty.canCast_of_isArithmetic leftNumber common),
    convert_typed rightTyped named (Ty.canCast_of_isArithmetic rightNumber common)⟩

theorem comparable_typed (typed : Typed known e) : Typed known (comparable e) := by
  simp only [comparable]
  split
  · rename_i pointer
    simp only [Bool.and_eq_true] at pointer
    exact convert_typed typed (by decide) pointer.2
  · exact typed

theorem compare_typed (leftTyped : Typed known left) (rightTyped : Typed known right) (kind : op.isComparison = true)
    (listed : op ∈ Operator.all) (built : compare pos op left right = .ok result) : Typed known result := by
  simp only [compare] at built
  split at built
  · cases built
  · rename_i numbers
    simp only [Bool.or_eq_true, not_or, Bool.not_eq_true', Bool.not_eq_false] at numbers
    have sides := promoted_typed (comparable_typed leftTyped) (comparable_typed rightTyped)
      numbers.1 numbers.2
    split at built
    · cases built
      simp only [literal]
      split <;> exact .literal (by decide) (by decide) (by decide)
    · rename_i varies
      cases built
      exact .comparison sides.1 sides.2 kind listed (by simpa using Ty.promote_isArithmetic _ _) (by simp)
        (by simpa using varies)

theorem arithmetic_typed (leftTyped : Typed known left) (rightTyped : Typed known right) (kind : op.isArithmetic = true)
    (built : arithmetic pos op left right = .ok result) : Typed known result := by
  simp only [arithmetic] at built
  split at built
  · cases built
  · rename_i numbers
    simp only [Bool.or_eq_true, not_or, Bool.not_eq_true', Bool.not_eq_false] at numbers
    have sides := promoted_typed leftTyped rightTyped numbers.1 numbers.2
    have common := Ty.promote_isArithmetic left.ty right.ty
    split at built
    · cases evaluated : evaluate op (convert left (.promote left.ty right.ty)).value
          (convert right (.promote left.ty right.ty)).value with
      | error error => simp [evaluated, bind, Except.bind] at built
      | ok value =>
        simp only [evaluated, bind, Except.bind, pure, Except.pure, Except.ok.injEq] at built
        subst built
        exact literal_typed known _ _ (Ty.isValue_of_isArithmetic common)
    · rename_i varies
      cases built
      have typed : Typed known (operation pos op (convert left (.promote left.ty right.ty))
          (convert right (.promote left.ty right.ty)) (convert left (.promote left.ty right.ty)).ty) :=
        .arithmetic sides.1 sides.2 kind (by simpa using common) (by simp) (by simpa using varies)
      simpa using typed

theorem scale_typed (typed : Typed known index) (isInt : index.ty = .int)
    (built : scale scaling pos index size = .ok result) : Typed known result ∧ result.ty = .int := by
  simp only [scale] at built
  split at built
  · cases built
    exact ⟨typed, isInt⟩
  · split at built
    · refine ⟨shift_typed typed (literal_typed known _ _ (by decide)) (by decide) built, ?_⟩
      simp only [shift, isInt] at built
      repeat' split at built
      all_goals cases built
      all_goals rfl
    · refine ⟨arithmetic_typed typed (literal_typed known _ _ (by decide)) (by decide) built, ?_⟩
      have common : Ty.promote index.ty (literal pos size .int).ty = .int := by rw [isInt]; rfl
      simp only [arithmetic, common, evaluate, bind, Except.bind, pure, Except.pure] at built
      repeat' split at built
      all_goals cases built
      all_goals rfl

theorem pointerArithmetic_typed (pointerTyped : Typed known pointer) (indexTyped : Typed known index)
    (kind : op.isAdditive = true) (isPointer : pointer.ty.isPointer = true) (number : index.ty.isArithmetic = true)
    (built : pointerArithmetic scaling pos op pointer index = .ok result) :
    Typed known result ∧ result.ty = pointer.ty := by
  simp only [pointerArithmetic, bind, Except.bind] at built
  split at built
  · cases built
  · rename_i offset scaled
    have legal : index.ty.canCast .int = true := Ty.canCast_of_isArithmetic number (by decide)
    have converted := convert_typed indexTyped (by decide) legal
    have scaledTyped := scale_typed converted (convert_ty index .int) scaled
    split at built
    · split at built
      · cases built
      · cases built
        exact ⟨literal_typed known _ _ (pointerTyped.value_of_isPointer isPointer), rfl⟩
    · rename_i varies
      cases built
      exact ⟨.pointer pointerTyped scaledTyped.1 kind isPointer scaledTyped.2 (by simpa using varies), rfl⟩

theorem binary_typed (leftTyped : Typed known left) (rightTyped : Typed known right) (listed : op ∈ Operator.all)
    (built : binary scaling pos op left right = .ok result) : Typed known result := by
  simp only [binary] at built
  split at built
  · exact assign_typed leftTyped rightTyped built
  · rename_i noAssign
    split at built
    · rename_i isShift
      exact shift_typed leftTyped rightTyped (by simpa [Operator.isShift] using isShift) built
    · rename_i noShift
      split at built
      · rename_i isComparison
        exact compare_typed leftTyped rightTyped isComparison listed built
      · rename_i noComparison
        split at built
        · rename_i swapped
          simp only [Bool.and_eq_true, decide_eq_true_eq] at swapped
          exact (pointerArithmetic_typed rightTyped leftTyped (by simp [Operator.isAdditive, swapped])
            swapped.1.2 swapped.2 built).1
        · split at built
          · rename_i moved
            simp only [Bool.and_eq_true] at moved
            exact (pointerArithmetic_typed leftTyped rightTyped moved.1.1 moved.1.2 moved.2 built).1
          · -- What is left of the listed operators are those on two numbers.
            have kind : op.isArithmetic = true := by
              simp only [Operator.all, List.mem_cons, List.not_mem_nil, or_false] at listed
              rcases listed with rfl | rfl | rfl | rfl | rfl | rfl | rfl | rfl | rfl | rfl | rfl | rfl | rfl
                | rfl | rfl | rfl | rfl
              all_goals first
                | rfl
                | exact absurd rfl noAssign
                | exact absurd rfl noComparison
                | exact absurd rfl noShift
            exact arithmetic_typed leftTyped rightTyped kind built

theorem splitAddress_typed (typed : Typed known address) (isPointer : address.ty.isPointer = true) :
    Typed known (splitAddress address).1 ∧ (splitAddress address).1.ty = address.ty ∧
      ((splitAddress address).2 ≠ 0 → (splitAddress address).1.isConstant = false) ∧
      (splitAddress address).2.natAbs ≤ 65535 := by
  have whole : Typed known address ∧ address.ty = address.ty ∧ ((0 : Int) ≠ 0 → address.isConstant = false) ∧
      (0 : Int).natAbs ≤ 65535 :=
    ⟨typed, rfl, fun wrong => absurd rfl wrong, by decide⟩
  cases typed with
  | pointer leftTyped rightTyped kind pointer offset varies =>
    rename_i pos op left right
    simp only [splitAddress, operation]
    split
    · rename_i constants
      simp only [Bool.and_eq_true, Bool.not_eq_true'] at constants
      have near := rightTyped.value_le_of_isConstant constants.1
      split
      · exact ⟨leftTyped, rfl, fun _ => constants.2, near⟩
      · exact ⟨leftTyped, rfl, fun _ => constants.2, by rwa [Int.natAbs_neg]⟩
      · exact whole
    · exact whole
  | arithmetic leftTyped rightTyped kind number same varies =>
    exact absurd isPointer (by simp [Ty.isPointer_of_isArithmetic number])
  | comparison => exact absurd isPointer (by simp [Ty.isPointer, Ty.flags])
  | shift leftTyped rightTyped kind number count varies fixed =>
    exact absurd isPointer (by simp [Ty.isPointer_of_isArithmetic number])
  | assign =>
    simp only [splitAddress, operation]
    split <;> exact whole
  | literal | var | deref | step | addressOfVar | addressOfDeref | cast | call => exact whole

theorem deref_typed (typed : Typed known address) (built : deref pos address = .ok result) :
    Typed known result := by
  simp only [deref] at built
  split at built
  · cases built
  · rename_i isPointer
    have isPointer : address.ty.isPointer = true := by simpa using isPointer
    split at built
    · cases built
    · rename_i pointee
      cases built
      obtain ⟨baseTyped, sameType, moves, near⟩ := splitAddress_typed typed isPointer
      rw [← sameType] at isPointer pointee ⊢
      exact .deref baseTyped isPointer pointee moves near

theorem index_shape (built : Build.index scaling pos base index = .ok result) :
    base.ty.isPointer = true ∧ index.ty.isArithmetic = true ∧
      ∃ address, pointerArithmetic scaling pos .add base index = .ok address ∧ deref pos address = .ok result := by
  simp only [Build.index, bind, Except.bind, throw, throwThe, MonadExceptOf.throw] at built
  cases isPointer : base.ty.isPointer with
  | false => simp [isPointer] at built
  | true =>
    cases number : index.ty.isArithmetic with
    | false => simp [isPointer, number] at built
    | true =>
      simp only [isPointer, number, Bool.not_true, Bool.false_eq_true, ↓reduceIte] at built
      split at built
      · cases built
      · rename_i address moved
        exact ⟨rfl, rfl, address, moved, built⟩

theorem index_typed (baseTyped : Typed known base) (indexTyped : Typed known index)
    (built : Build.index scaling pos base index = .ok result) : Typed known result := by
  obtain ⟨isPointer, number, address, moved, read⟩ := index_shape built
  exact deref_typed (pointerArithmetic_typed baseTyped indexTyped (by decide) isPointer number moved).1 read

theorem step_shape {target : Expr} (built : step pos target down = .ok result) :
    target.isWritable = true ∧
      result = .step { pos, ty := target.ty, writable := true, usesRegisters := target.usesRegisters } target down := by
  simp only [step] at built
  split at built
  · cases built
  · rename_i writable
    split at built
    · cases built
    · cases built
      exact ⟨by simpa using writable, rfl⟩

theorem step_typed {target : Expr} (typed : Typed known target) (built : step pos target down = .ok result) :
    Typed known result := by
  obtain ⟨writable, rfl⟩ := step_shape built
  exact .step typed writable (typed.value_of_writable writable)

theorem addressOf_typed {target : Expr} (typed : Typed known target) (built : addressOf pos target = .ok result) :
    Typed known result := by
  cases target with
  | var info name offset =>
    cases built
    cases typed with
    | var found => exact .addressOfVar found
  | deref info address displacement =>
    simp only [addressOf] at built
    cases typed with
    | deref inner pointer pointee moves near =>
      split at built
      · cases built
        exact inner
      · rename_i moved
        cases built
        exact .addressOfDeref inner pointer pointee moved (moves moved) near
  | literal | step | addressOf | cast | call | binary | hollow => cases built

theorem arguments_typed {given result : List Expr} (typed : ∀ e ∈ given, Typed known e)
    (named : ∀ ty ∈ params.map Param.ty, ty.IsValue) (built : arguments given params = .ok result) :
    (∀ e ∈ result, Typed known e) ∧ result.map Expr.ty = params.map Param.ty := by
  induction given generalizing params result with
  | nil =>
    cases params with
    | nil =>
      cases built
      simp
    | cons param rest => cases built
  | cons e rest ih =>
    cases params with
    | nil => cases built
    | cons param params =>
      simp only [arguments, bind, Except.bind, pure, Except.pure] at built
      split at built
      · cases built
      · rename_i converted first
        split at built
        · cases built
        · rename_i others remaining
          cases built
          have head := implicit_typed (typed e (by simp)) (named param.ty (by simp)).1 first
          have tail := ih (fun other member => typed other (by simp [member]))
            (fun ty member => named ty (by simp only [List.map_cons, List.mem_cons, member, or_true]))
            remaining
          refine ⟨?_, by simp [head.2, tail.2]⟩
          intro other member
          rcases List.mem_cons.mp member with rfl | later
          · exact head.1
          · exact tail.1 other later

theorem call_typed (found : known.callees callee) (typed : ∀ e ∈ given, Typed known e)
    (built : call pos callee given = .ok result) : Typed known result := by
  simp only [call, bind, Except.bind, pure, Except.pure] at built
  split at built
  · cases built
  · split at built
    · cases built
    · rename_i converted accepted
      cases built
      have checked := arguments_typed typed (known.params_value found) accepted
      exact .call found checked.2 checked.1

end Build

variable {known : Vocabulary} {e : Expr}

theorem Built.typed (built : Built known e) : Typed known e := by
  induction built with
  | literal pos value isValue => exact Build.literal_typed known pos value isValue
  | var pos found => exact .var found
  | cast _ named made typed => exact Build.cast_typed typed named made
  | implicit _ named made typed => exact (Build.implicit_typed typed named made).1
  | binary _ _ listed made leftTyped rightTyped => exact Build.binary_typed leftTyped rightTyped listed made
  | deref _ made typed => exact Build.deref_typed typed made
  | index _ _ made baseTyped indexTyped => exact Build.index_typed baseTyped indexTyped made
  | step _ made typed => exact Build.step_typed typed made
  | addressOf _ made typed => exact Build.addressOf_typed typed made
  | call found _ made typed => exact Build.call_typed found typed made

def Vocabulary.variablesOnly : Vocabulary where
  names _ ty _ := ty.IsValue
  callees _ := False
  names_value := id
  params_value := nofun
  returns_named := nofun

def Vocabulary.silent (known : Vocabulary) : Vocabulary where
  names := known.names
  callees _ := False
  names_value := known.names_value
  params_value := nofun
  returns_named := nofun

theorem Typed.silent (typed : Typed known e) (quiet : e.calls = []) : Typed known.silent e := by
  have split {first second : List Bytes} (none : first ++ second = []) : first = [] ∧ second = [] :=
    List.append_eq_nil_iff.mp none
  induction typed with
  | literal lower upper kind => exact .literal lower upper kind
  | var found => exact .var found
  | deref _ pointer pointee moves near ih => exact .deref (ih quiet) pointer pointee moves near
  | step _ writable scalar ih => exact .step (ih quiet) writable scalar
  | addressOfVar found => exact .addressOfVar found
  | addressOfDeref _ pointer pointee moved varies near ih =>
    exact .addressOfDeref (ih quiet) pointer pointee moved varies near
  | cast _ named varies changes legal ih => exact .cast (ih quiet) named varies changes legal
  | call => cases quiet
  | assign _ _ writable same leftIh rightIh =>
    exact .assign (leftIh (split quiet).1) (rightIh (split quiet).2) writable same
  | arithmetic _ _ kind number same varies leftIh rightIh =>
    exact .arithmetic (leftIh (split quiet).1) (rightIh (split quiet).2) kind number same varies
  | pointer _ _ kind pointer offset varies leftIh rightIh =>
    exact .pointer (leftIh (split quiet).1) (rightIh (split quiet).2) kind pointer offset varies
  | shift _ _ kind number count varies fixed leftIh rightIh =>
    exact .shift (leftIh (split quiet).1) (rightIh (split quiet).2) kind number count varies fixed
  | comparison _ _ kind listed number same varies leftIh rightIh =>
    exact .comparison (leftIh (split quiet).1) (rightIh (split quiet).2) kind listed number same varies

theorem Typed.constant_or_comparison (typed : Typed known e) (isFlags : e.ty = .flags) :
    e.isConstant = true ∨ ∃ pos op left right, e = Build.operation pos op left right .flags ∧ Typed known left ∧
      Typed known right ∧ op.isComparison = true ∧ op ∈ Operator.all ∧ left.ty.isArithmetic = true ∧
        right.ty = left.ty := by
  cases typed with
  | literal => exact .inl rfl
  | @comparison pos op left right leftTyped rightTyped kind listed number same varies =>
    exact .inr ⟨pos, op, left, right, rfl, leftTyped, rightTyped, kind, listed, number, same⟩
  | var found | addressOfVar found => exact absurd isFlags (Ty.IsNamed.ne_flags (known.names_value found).1)
  | deref inner pointer | addressOfDeref inner pointer =>
    exact absurd isFlags (Ty.IsNamed.ne_flags (inner.value_of_isPointer pointer).1)
  | step _ _ scalar => exact absurd isFlags scalar.1.ne_flags
  | cast _ named => exact absurd isFlags named.ne_flags
  | call found => exact absurd isFlags (known.returns_named found).ne_flags
  | assign leftTyped _ writable => exact absurd isFlags (leftTyped.value_of_writable writable).1.ne_flags
  | pointer leftTyped _ _ pointer => exact absurd isFlags (leftTyped.value_of_isPointer pointer).1.ne_flags
  | arithmetic _ _ _ number | shift _ _ _ number =>
    exact absurd isFlags (Ty.isValue_of_isArithmetic number).1.ne_flags

end Cb
