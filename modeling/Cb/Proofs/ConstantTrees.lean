import Cb.Proofs.Meaning

/-! Trees of constants. What they stand for is told by their types and by numbers alone; construction turns each of
them into one literal with that value, or fails where a part is ill typed or divides by zero. -/

namespace Cb

inductive CastKind where
  | explicit
  | implicit

namespace CastKind

def allows : CastKind → Ty → Ty → Bool
  | .explicit => Ty.canCast
  | .implicit => Ty.convertsTo

def build : CastKind → Expr → Ty → Except BuildError Expr
  | .explicit => Build.cast
  | .implicit => Build.implicit

end CastKind

/-- An expression whose leaves are constants, as it is put together. Every operation may choose its own scaling. -/
inductive ConstantTree where
  | literal (pos : Position) (value : Int) (ty : Ty)
  | cast (kind : CastKind) (target : Ty) (operand : ConstantTree)
  | binary (scaling : Scaling) (pos : Position) (op : Operator) (left right : ConstantTree)

def Ty.isScalar (t : Ty) : Bool := t.isArithmetic || t.isPointer

namespace Operator

def resultTy? (op : Operator) (a b : Ty) : Option Ty :=
  if op.isShift then if a.isArithmetic && b.isArithmetic then some a else none
  else if op.isComparison then if a.isScalar && b.isScalar then some .flags else none
  else if op.isArithmetic && a.isArithmetic && b.isArithmetic then some (.promote a b)
  else if op.isAdditive && a.isPointer && b.isArithmetic then some a
  else if op = .add && a.isArithmetic && b.isPointer then some b
  else none

def combine (op : Operator) (a b : Ty) (m n : Int) : Int :=
  if op.isAdditive && a.isPointer then op.meaning m (n * a.deref.size)
  else if op.isAdditive && b.isPointer then op.meaning (m * b.deref.size) n
  else op.meaning m n

end Operator

namespace ConstantTree

def build : ConstantTree → Except BuildError Expr
  | .literal pos value ty => .ok (Build.literal pos value ty)
  | .cast kind target operand => do kind.build (← operand.build) target
  | .binary scaling pos op left right => do Build.binary scaling pos op (← left.build) (← right.build)

def ty? : ConstantTree → Option Ty
  | .literal _ _ ty => some ty
  | .cast kind target operand => do if kind.allows (← operand.ty?) target then some target else none
  | .binary _ _ op left right => do op.resultTy? (← left.ty?) (← right.ty?)

def value : ConstantTree → Int
  | .literal _ value ty => value % 2 ^ ty.bits
  | .cast _ target operand => operand.value % 2 ^ target.bits
  | .binary _ _ op left right =>
    match left.ty?, right.ty? with
    | some a, some b =>
      match op.resultTy? a b with
      | some ty => op.combine a b left.value right.value % 2 ^ ty.bits
      | none => 0
    | _, _ => 0

def subtrees : ConstantTree → List ConstantTree
  | t@(.literal _ _ _) => [t]
  | t@(.cast _ _ operand) => t :: operand.subtrees
  | t@(.binary _ _ _ left right) => t :: (left.subtrees ++ right.subtrees)

def DividesByZero : ConstantTree → Prop
  | .binary _ _ op _ right => op.isDivision = true ∧ right.value = 0
  | _ => False

def pos : ConstantTree → Position
  | .literal pos _ _ => pos
  | .cast _ _ operand => operand.pos
  | .binary _ pos _ _ _ => pos

end ConstantTree

def Expr.constant (pos : Position) (ty : Ty) (value : Int) : Expr := .literal { pos, ty, constant := true, value }

namespace Expr

variable (pos : Position) (ty : Ty) (number : Int)

@[simp] theorem constant_ty : (constant pos ty number).ty = ty := rfl

@[simp] theorem constant_value : (constant pos ty number).value = number := rfl

@[simp] theorem constant_isConstant : (constant pos ty number).isConstant = true := rfl

end Expr

def Ty.Holds (t : Ty) (value : Int) : Prop := 0 ≤ value ∧ value < 2 ^ t.bits

namespace Ty

theorem wrap_eq_mod (t : Ty) (value : Int) : t.wrap value = value % 2 ^ t.bits := by simp [wrap]

theorem holds_mod (t : Ty) (value : Int) : t.Holds (value % 2 ^ t.bits) := by
  rw [← wrap_eq_mod]
  exact ⟨t.wrap_lower value, by simpa using t.wrap_upper value⟩

variable {value : Int} {t : Ty}

theorem Holds.mod_eq (holds : t.Holds value) : value % 2 ^ t.bits = value :=
  Int.emod_eq_of_lt holds.1 holds.2

theorem isArithmetic_of_isPointer (pointer : t.isPointer = true) : t.isArithmetic = false := by
  cases number : t.isArithmetic with
  | false => rfl
  | true => exact absurd pointer (by simp [isPointer_of_isArithmetic number])

theorem bits_cases (t : Ty) : t.bits = 8 ∨ t.bits = 16 := by
  rcases Lower.size_cases t with size | size <;> simp [bits, size]

theorem Holds.lt_word (holds : t.Holds value) : value < 65536 := by
  have upper := holds.2
  rcases t.bits_cases with bits | bits <;> rw [bits] at upper <;> omega

theorem Holds.int (holds : t.Holds value) : Ty.int.Holds value := ⟨holds.1, holds.lt_word⟩

theorem Holds.promote_left (holds : a.Holds value) (number : a.isArithmetic = true) (b : Ty) :
    (promote a b).Holds value := by
  rw [promote]
  split
  · exact holds.int
  · rename_i bytes
    simp only [Bool.or_eq_true, decide_eq_true_eq, not_or] at bytes
    rwa [← ((isArithmetic_iff a).mp number).resolve_left bytes.1]

theorem promote_comm (a b : Ty) : promote a b = promote b a := by simp only [promote, Bool.or_comm]

theorem Holds.promote_right (holds : b.Holds value) (number : b.isArithmetic = true) (a : Ty) :
    (promote a b).Holds value := promote_comm a b ▸ holds.promote_left number a

end Ty

namespace Build

variable {p q pos : Position} {a b : Ty} {m n : Int} {op : Operator}

theorem literal_eq_constant (pos : Position) (value : Int) (ty : Ty) :
    literal pos value ty = .constant pos ty (value % 2 ^ ty.bits) := by
  rw [literal, Ty.wrap_eq_mod]
  rfl

theorem convert_constant (holds : a.Holds m) (target : Ty) :
    convert (.constant p a m) target = .constant p target (m % 2 ^ target.bits) := by
  rw [convert]
  split
  · rename_i same
    obtain rfl : a = target := same
    rw [holds.mod_eq]
  · exact literal_eq_constant p m target

theorem convert_constant_of_holds (holds : a.Holds m) (fits : target.Holds m) :
    convert (.constant p a m) target = .constant p target m := by
  rw [convert_constant holds, fits.mod_eq]

theorem conversion_constant (kind : CastKind) (holds : a.Holds m) (target : Ty) :
    kind.build (.constant p a m) target = if kind.allows a target = true then .ok (.constant p target (m % 2 ^ target.bits))
      else .error (match kind with | .explicit => .castTypes a target | .implicit => .conversionTypes a target) := by
  rw [← convert_constant holds]
  cases kind <;> rfl

theorem shiftValue_eq (kind : op.isShift = true) (m : Int) (a : Ty) (count : Nat) :
    shiftValue op m count % 2 ^ a.bits = op.meaning m count % 2 ^ a.bits := by
  simp only [Operator.isShift, Bool.or_eq_true, decide_eq_true_eq] at kind
  rcases kind with rfl | rfl
  · rw [shiftValue, if_neg (by decide)]
    split
    · rename_i far
      have narrow : a.bits ≤ count := by
        have := a.bits_cases
        omega
      have divides : (2 : Int) ^ a.bits ∣ 2 ^ count := mod_cast Nat.pow_dvd_pow 2 narrow
      have multiple : (2 : Int) ^ a.bits ∣ m * 2 ^ count := Int.dvd_trans divides (Int.dvd_mul_left ..)
      simp [Operator.meaning, Int.emod_eq_zero_of_dvd multiple]
    · simp [Operator.meaning]
  · simp [shiftValue, Operator.meaning, Int.shiftRight_eq_div_pow]

theorem shift_constants (kind : op.isShift = true) (count : b.Holds n)
    (numbers : a.isArithmetic = true ∧ b.isArithmetic = true) :
    shift pos op (.constant p a m) (.constant q b n) = .ok (.constant pos a (op.meaning m n % 2 ^ a.bits)) := by
  have value := shiftValue_eq kind m a n.toNat
  rw [Int.toNat_of_nonneg count.1] at value
  simp [shift, numbers, literal_eq_constant, value]

theorem shift_refused (numbers : ¬(a.isArithmetic = true ∧ b.isArithmetic = true)) :
    ∃ error, shift pos op (.constant p a m) (.constant q b n) = .error error := by
  refine ⟨.operandTypes op a b, ?_⟩
  rw [shift, if_neg (by simp), if_pos (by simpa [← not_and_or, imp_iff_not_or] using numbers)]
  rfl

theorem promote_constants (left : a.Holds m) (right : b.Holds n) (numbers : a.isArithmetic = true ∧ b.isArithmetic = true) :
    convert (.constant p a m) (.promote a b) = .constant p (.promote a b) m ∧
      convert (.constant q b n) (.promote a b) = .constant q (.promote a b) n :=
  ⟨convert_constant_of_holds left (left.promote_left numbers.1 b),
    convert_constant_of_holds right (right.promote_right numbers.2 a)⟩

theorem comparable_constant (holds : a.Holds m) (scalar : a.isScalar = true) :
    ∃ t, comparable (.constant p a m) = .constant p t m ∧ t.Holds m ∧ t.isArithmetic = true := by
  by_cases number : a.isArithmetic = true
  · exact ⟨a, by simp [comparable, number], holds, number⟩
  · have pointer : a.isPointer = true := by simpa [Ty.isScalar, number] using scalar
    refine ⟨.int, ?_, holds.int, rfl⟩
    have castable : a.canCast .int = true := by
      simp [Ty.canCast, pointer, Ty.size, Ty.int, Ty.byte, Ty.flags, Ty.void]
    rw [comparable, if_pos (by simp [number, castable]), convert_constant_of_holds holds holds.int]

theorem comparable_ty (e : Expr) (scalar : e.ty.isScalar = false) : (comparable e).ty.isArithmetic = false := by
  simp only [Ty.isScalar, Bool.or_eq_false_iff] at scalar
  have fixed : e.ty.canCast .int = false := by
    have other : e.ty ≠ .int := by
      intro same
      simp [same, Ty.isArithmetic] at scalar
    simp [Ty.canCast, scalar, other, show Ty.int.isPointer = false from rfl]
  rw [comparable, if_neg (by simp [fixed])]
  exact scalar.1

theorem holds_eq_meaning (kind : op.isComparison = true) (m n : Int) :
    (if holds op m n = true then (1 : Int) else 0) = op.meaning m n := by
  cases op <;> first | cases kind; done | simp [holds, Operator.meaning]

theorem compare_constants (kind : op.isComparison = true) (left : a.Holds m) (right : b.Holds n)
    (scalars : a.isScalar = true ∧ b.isScalar = true) :
    compare pos op (.constant p a m) (.constant q b n) = .ok (.constant pos .flags (op.meaning m n % 2 ^ Ty.flags.bits)) := by
  obtain ⟨s, isLeft, leftHolds, leftNumber⟩ := comparable_constant (p := p) left scalars.1
  obtain ⟨t, isRight, rightHolds, rightNumber⟩ := comparable_constant (p := q) right scalars.2
  obtain ⟨promotedLeft, promotedRight⟩ := promote_constants (p := p) (q := q) leftHolds rightHolds ⟨leftNumber, rightNumber⟩
  simp [compare, isLeft, isRight, leftNumber, rightNumber, promotedLeft, promotedRight, holds_eq_meaning kind,
    literal_eq_constant]

theorem compare_refused (scalars : ¬(a.isScalar = true ∧ b.isScalar = true)) :
    ∃ error, compare pos op (.constant p a m) (.constant q b n) = .error error := by
  have refused : (comparable (.constant p a m)).ty.isArithmetic = false ∨
      (comparable (.constant q b n)).ty.isArithmetic = false := by
    rcases Classical.not_and_iff_not_or_not.mp scalars with wrong | wrong
    · exact .inl (comparable_ty _ (by simpa using wrong))
    · exact .inr (comparable_ty _ (by simpa using wrong))
  rw [compare, if_pos (by simpa using refused)]
  exact ⟨_, rfl⟩

theorem word_eq (holds : a.Holds m) : word m = m.toNat := by
  have upper := holds.lt_word
  have lower := holds.1
  rw [word, Int.emod_eq_of_lt lower upper]

theorem evaluate_eq (kind : op.isArithmetic = true) (left : a.Holds m) (right : b.Holds n) :
    evaluate op m n = if op.isDivision = true ∧ n = 0 then .error .divisionByZero else .ok (op.meaning m n) := by
  have divide : m.tdiv n = m / n := Int.tdiv_eq_ediv_of_nonneg left.1
  have modulo : m.tmod n = m % n := Int.tmod_eq_emod_of_nonneg left.1
  cases op <;> first
    | cases kind; done
    | simp [evaluate, Operator.isDivision, Operator.meaning, word_eq left, word_eq right, divide, modulo]

theorem arithmetic_constants (kind : op.isArithmetic = true) (left : a.Holds m) (right : b.Holds n)
    (numbers : a.isArithmetic = true ∧ b.isArithmetic = true) :
    arithmetic pos op (.constant p a m) (.constant q b n) = if op.isDivision = true ∧ n = 0 then .error .divisionByZero
      else .ok (.constant pos (.promote a b) (op.meaning m n % 2 ^ (Ty.promote a b).bits)) := by
  obtain ⟨promotedLeft, promotedRight⟩ := promote_constants (p := p) (q := q) left right numbers
  simp only [arithmetic, Expr.constant_ty, numbers, promotedLeft, promotedRight, Expr.constant_value,
    evaluate_eq kind left right, Expr.constant_isConstant, Bool.and_self, Bool.not_true, Bool.or_self,
    Bool.false_eq_true, if_false, if_true]
  split
  · rfl
  · exact congrArg Except.ok (literal_eq_constant ..)

theorem arithmetic_refused (refused : ¬(op.isArithmetic = true ∧ a.isArithmetic = true ∧ b.isArithmetic = true)) :
    ∃ error, arithmetic pos op (.constant p a m) (.constant q b n) = .error error := by
  by_cases numbers : a.isArithmetic = true ∧ b.isArithmetic = true
  · have other : ∀ m n, evaluate op m n = .error (.constants op) := by
      intro m n
      cases op <;> first | rfl | exact absurd ⟨rfl, numbers⟩ refused
    simp [arithmetic, numbers, other, bind, Except.bind]
  · rw [arithmetic, if_pos (by simpa [← not_and_or, imp_iff_not_or] using numbers)]
    exact ⟨_, rfl⟩

theorem scale_constant (scaling : Scaling) (pos q : Position) (holds : Ty.int.Holds n) (t : Ty) :
    ∃ place, scale scaling pos (.constant q .int n) t.size = .ok (.constant place .int (n * t.size % 2 ^ Ty.int.bits)) := by
  rcases Lower.size_cases t with size | size
  · refine ⟨q, ?_⟩
    unfold scale
    rw [if_pos size, size, Nat.cast_one, mul_one, holds.mod_eq]
  · refine ⟨pos, ?_⟩
    unfold scale
    rw [size, if_neg (by decide)]
    cases scaling with
    | multiply =>
      have two : literal pos (2 : Nat) .int = .constant pos .int 2 := literal_eq_constant ..
      exact two ▸ arithmetic_constants (by decide) holds ⟨by decide, by decide⟩ ⟨by decide, by decide⟩
    | shift =>
      have one : literal pos (Nat.log2 2 : Nat) .byte = .constant pos .byte 1 := literal_eq_constant ..
      exact one ▸ shift_constants (by decide) ⟨by decide, by decide⟩ ⟨by decide, by decide⟩

theorem pointerArithmetic_constants (scaling : Scaling) (kind : op.isAdditive = true) (left : a.Holds m) (right : b.Holds n)
    (pointer : a.isPointer = true) :
    pointerArithmetic scaling pos op (.constant p a m) (.constant q b n) =
      .ok (.constant pos a (op.meaning m (n * a.deref.size) % 2 ^ a.bits)) := by
  obtain ⟨place, scaled⟩ := scale_constant scaling pos q right.int a.deref
  have arithmetic := Operator.isArithmetic_of_isAdditive kind
  have whole : op.isDivision = false := by
    cases op <;> first | rfl | cases kind
  have wide : a.bits = 16 := by simp [Ty.bits, Ty.size_of_isPointer pointer]
  have cut : op.meaning m (n * a.deref.size % 2 ^ Ty.int.bits) % 2 ^ a.bits = op.meaning m (n * a.deref.size) % 2 ^ a.bits := by
    have same : Ty.int.bits = 16 := rfl
    rw [wide, same]
    cases op <;> first | (cases kind; done) | (simp only [Operator.meaning]; omega)
  simp only [pointerArithmetic, convert_constant_of_holds right right.int, Expr.constant_ty, scaled, bind, Except.bind,
    Expr.constant_isConstant, Expr.constant_value, evaluate_eq arithmetic left (Ty.int.holds_mod _), whole,
    Bool.and_self, Bool.false_eq_true, false_and, if_true, if_false, pure, Except.pure, literal_eq_constant, cut]

def Folds (pos : Position) (op : Operator) (a b : Ty) (m n : Int) (result : Except BuildError Expr) : Prop :=
  match op.resultTy? a b with
  | some ty => result = if op.isDivision = true ∧ n = 0 then .error .divisionByZero
      else .ok (.constant pos ty (op.combine a b m n % 2 ^ ty.bits))
  | none => ∃ error, result = .error error

namespace Folds

variable {result : Except BuildError Expr}

theorem refused (none : op.resultTy? a b = none) (failed : ∃ error, result = .error error) : Folds pos op a b m n result := by
  rwa [Folds, none]

theorem folded (typed : op.resultTy? a b = some ty) (whole : op.isDivision = false)
    (made : result = .ok (.constant pos ty (op.combine a b m n % 2 ^ ty.bits))) : Folds pos op a b m n result := by
  rw [Folds, typed]
  exact made.trans (if_neg (by simp [whole])).symm

theorem combine_eq (unmoved : op.isAdditive = false ∨ a.isPointer = false ∧ b.isPointer = false) :
    op.combine a b m n = op.meaning m n := by
  rw [Operator.combine]
  rcases unmoved with unmoved | ⟨noLeft, noRight⟩
  · simp [unmoved]
  · simp [noLeft, noRight]

end Folds

theorem shift_folds (kind : op.isShift = true) (count : b.Holds n) :
    Folds pos op a b m n (shift pos op (.constant p a m) (.constant q b n)) := by
  have others : op.isDivision = false ∧ op.isAdditive = false := by
    cases op <;> first | exact ⟨rfl, rfl⟩ | cases kind
  by_cases numbers : a.isArithmetic = true ∧ b.isArithmetic = true
  · have typed : op.resultTy? a b = some a := by simp [Operator.resultTy?, kind, numbers]
    refine .folded typed others.1 ?_
    rw [Folds.combine_eq (.inl others.2)]
    exact shift_constants kind count numbers
  · exact .refused (by simpa [Operator.resultTy?, kind] using numbers) (shift_refused numbers)

theorem compare_folds (kind : op.isComparison = true) (left : a.Holds m) (right : b.Holds n) :
    Folds pos op a b m n (compare pos op (.constant p a m) (.constant q b n)) := by
  have others : op.isShift = false ∧ op.isDivision = false ∧ op.isAdditive = false := by
    cases op <;> first | exact ⟨rfl, rfl, rfl⟩ | cases kind
  by_cases scalars : a.isScalar = true ∧ b.isScalar = true
  · have typed : op.resultTy? a b = some .flags := by simp [Operator.resultTy?, others, kind, scalars]
    refine .folded typed others.2.1 ?_
    rw [Folds.combine_eq (.inl others.2.2)]
    exact compare_constants kind left right scalars
  · exact .refused (by simpa [Operator.resultTy?, others, kind] using scalars) (compare_refused scalars)

theorem moved_folds (scaling : Scaling) (kind : op.isAdditive = true) (left : a.Holds m) (right : b.Holds n)
    (pointer : a.isPointer = true) (number : b.isArithmetic = true) :
    Folds pos op a b m n (pointerArithmetic scaling pos op (.constant p a m) (.constant q b n)) := by
  have others : op.isShift = false ∧ op.isComparison = false ∧ op.isDivision = false := by
    cases op <;> first | exact ⟨rfl, rfl, rfl⟩ | cases kind
  have typed : op.resultTy? a b = some a := by
    simp [Operator.resultTy?, others, kind, pointer, number, Ty.isArithmetic_of_isPointer pointer]
  refine .folded typed others.2.2 ?_
  rw [Operator.combine, if_pos (by simp [kind, pointer])]
  exact pointerArithmetic_constants scaling kind left right pointer

theorem swapped_folds (scaling : Scaling) (left : a.Holds m) (right : b.Holds n) (number : a.isArithmetic = true)
    (pointer : b.isPointer = true) :
    Folds pos .add a b m n (pointerArithmetic scaling pos .add (.constant q b n) (.constant p a m)) := by
  have fixed := Ty.isPointer_of_isArithmetic number
  have kinds : Operator.add.isShift = false ∧ Operator.add.isComparison = false ∧ Operator.add.isAdditive = true :=
    ⟨rfl, rfl, rfl⟩
  have typed : Operator.add.resultTy? a b = some b := by
    simp [Operator.resultTy?, kinds, fixed, number, pointer, Ty.isArithmetic_of_isPointer pointer]
  refine .folded typed rfl ?_
  rw [pointerArithmetic_constants scaling rfl right left pointer, Operator.combine, if_neg (by simp [fixed]),
    if_pos (by simp [pointer, kinds]), Operator.meaning, Operator.meaning, Int.add_comm]

theorem arithmetic_folds (left : a.Holds m) (right : b.Holds n) (noShift : op.isShift = false)
    (noComparison : op.isComparison = false)
    (unmoved : ¬(op.isAdditive = true ∧ a.isPointer = true ∧ b.isArithmetic = true))
    (unswapped : ¬(op = .add ∧ a.isArithmetic = true ∧ b.isPointer = true)) :
    Folds pos op a b m n (arithmetic pos op (.constant p a m) (.constant q b n)) := by
  by_cases numbers : op.isArithmetic = true ∧ a.isArithmetic = true ∧ b.isArithmetic = true
  · have typed : op.resultTy? a b = some (.promote a b) := by simp [Operator.resultTy?, noShift, noComparison, numbers]
    have fixed := And.intro (Ty.isPointer_of_isArithmetic numbers.2.1) (Ty.isPointer_of_isArithmetic numbers.2.2)
    rw [Folds, typed, Folds.combine_eq (.inr fixed)]
    exact arithmetic_constants numbers.1 left right numbers.2
  · refine .refused ?_ (arithmetic_refused numbers)
    rw [Operator.resultTy?, if_neg (by simp [noShift]), if_neg (by simp [noComparison]),
      if_neg (by simpa [and_assoc] using numbers), if_neg (by simpa [and_assoc] using unmoved),
      if_neg (by simpa [and_assoc] using unswapped)]

theorem binary_folds (scaling : Scaling) (p q pos : Position) (op : Operator) (left : a.Holds m) (right : b.Holds n) :
    Folds pos op a b m n (binary scaling pos op (.constant p a m) (.constant q b n)) := by
  by_cases assigns : op = .assign
  · subst assigns
    exact .refused rfl ⟨.notWritable, rfl⟩
  rw [binary, if_neg assigns]
  by_cases shifts : op.isShift = true
  · rw [if_pos (show (decide (op = .shiftLeft) || decide (op = .shiftRight)) = true from shifts)]
    exact shift_folds shifts right
  rw [if_neg (show ¬(decide (op = .shiftLeft) || decide (op = .shiftRight)) = true from shifts)]
  by_cases compares : op.isComparison = true
  · rw [if_pos compares]
    exact compare_folds compares left right
  rw [if_neg compares]
  by_cases swapped : op = .add ∧ b.isPointer = true ∧ a.isArithmetic = true
  · obtain ⟨rfl, pointer, number⟩ := swapped
    rw [if_pos (by simp [pointer, number])]
    exact swapped_folds scaling left right number pointer
  rw [if_neg (by simpa [and_assoc] using swapped)]
  by_cases moved : op.isAdditive = true ∧ a.isPointer = true ∧ b.isArithmetic = true
  · rw [if_pos (by simpa [Operator.isAdditive, and_assoc] using moved)]
    exact moved_folds scaling moved.1 left right moved.2.1 moved.2.2
  rw [if_neg (by simpa [Operator.isAdditive, and_assoc] using moved)]
  exact arithmetic_folds left right (by simpa using shifts) (by simpa using compares) moved
    fun added => swapped ⟨added.1, added.2.2, added.2.1⟩

end Build

namespace ConstantTree

variable {t : ConstantTree}

theorem value_holds (typed : t.ty? = some ty) : ty.Holds t.value := by
  cases t with
  | literal pos value target =>
    cases typed
    exact ty.holds_mod value
  | cast kind target operand =>
    simp only [ty?, Option.bind_eq_bind, Option.bind_eq_some_iff, Option.ite_none_right_eq_some, Option.some.injEq] at typed
    obtain ⟨source, _, _, rfl⟩ := typed
    exact target.holds_mod _
  | binary scaling pos op left right =>
    simp only [ty?, Option.bind_eq_bind, Option.bind_eq_some_iff] at typed
    obtain ⟨a, leftTyped, b, rightTyped, result⟩ := typed
    simp only [value, leftTyped, rightTyped, result]
    exact ty.holds_mod _

def Sound (t : ConstantTree) : Prop := ∀ s ∈ t.subtrees, s.ty? ≠ none ∧ ¬s.DividesByZero

theorem sound_cast (kind : CastKind) (target : Ty) (operand : ConstantTree) :
    (cast kind target operand).Sound ↔ (cast kind target operand).ty? ≠ none ∧ operand.Sound := by
  simp [Sound, subtrees, DividesByZero]

theorem sound_binary (scaling : Scaling) (pos : Position) (op : Operator) (left right : ConstantTree) :
    (binary scaling pos op left right).Sound ↔ (binary scaling pos op left right).ty? ≠ none ∧
      ¬(op.isDivision = true ∧ right.value = 0) ∧ left.Sound ∧ right.Sound := by
  simp only [Sound, subtrees, List.forall_mem_cons, List.forall_mem_append, DividesByZero, and_assoc]

def Settled (t : ConstantTree) : Prop :=
  (t.Sound ∧ ∃ ty, t.ty? = some ty ∧ t.build = .ok (.constant t.pos ty t.value)) ∨
    (¬t.Sound ∧ ∃ error, t.build = .error error)

theorem Settled.cast (settled : operand.Settled) (kind : CastKind) (target : Ty) :
    (ConstantTree.cast kind target operand).Settled := by
  rcases settled with ⟨sound, source, typed, built⟩ | ⟨flawed, error, failed⟩
  · by_cases legal : kind.allows source target = true
    · have result : (ConstantTree.cast kind target operand).ty? = some target := by simp [ty?, typed, legal]
      refine .inl ⟨(sound_cast ..).mpr ⟨by simp [result], sound⟩, target, result, ?_⟩
      simp [build, built, bind, Except.bind, Build.conversion_constant kind (value_holds typed), legal, pos, value]
    · have none : (ConstantTree.cast kind target operand).ty? = none := by simp [ty?, typed, legal]
      refine .inr ⟨fun whole => ((sound_cast ..).mp whole).1 none, ?_⟩
      simp [build, built, bind, Except.bind, Build.conversion_constant kind (value_holds typed), legal]
  · refine .inr ⟨fun whole => flawed ((sound_cast ..).mp whole).2, error, ?_⟩
    simp [build, failed, bind, Except.bind]

theorem Settled.binary (leftSettled : left.Settled) (rightSettled : right.Settled) (scaling : Scaling) (pos : Position)
    (op : Operator) : (ConstantTree.binary scaling pos op left right).Settled := by
  rcases leftSettled with ⟨leftSound, a, leftTyped, leftBuilt⟩ | ⟨flawed, error, failed⟩
  · rcases rightSettled with ⟨rightSound, b, rightTyped, rightBuilt⟩ | ⟨flawed, error, failed⟩
    · have folds := Build.binary_folds scaling left.pos right.pos pos op (value_holds leftTyped) (value_holds rightTyped)
      have made : (ConstantTree.binary scaling pos op left right).build = Build.binary scaling pos op
          (.constant left.pos a left.value) (.constant right.pos b right.value) := by
        simp only [build, leftBuilt, rightBuilt, bind, Except.bind]
      have typed : (ConstantTree.binary scaling pos op left right).ty? = op.resultTy? a b := by
        simp [ty?, leftTyped, rightTyped]
      rw [Build.Folds, ← made] at folds
      cases result : op.resultTy? a b with
      | none =>
        rw [result] at folds typed
        exact .inr ⟨fun whole => ((sound_binary ..).mp whole).1 typed, folds⟩
      | some ty =>
        simp only [result] at folds
        rw [result] at typed
        by_cases zero : op.isDivision = true ∧ right.value = 0
        · rw [if_pos zero] at folds
          exact .inr ⟨fun whole => ((sound_binary ..).mp whole).2.1 zero, _, folds⟩
        · rw [if_neg zero] at folds
          refine .inl ⟨(sound_binary ..).mpr ⟨by simp [typed], zero, leftSound, rightSound⟩, ty, typed, ?_⟩
          simpa only [ConstantTree.pos, value, leftTyped, rightTyped, result] using folds
    · refine .inr ⟨fun whole => flawed ((sound_binary ..).mp whole).2.2.2, error, ?_⟩
      simp [build, leftBuilt, failed, bind, Except.bind]
  · refine .inr ⟨fun whole => flawed ((sound_binary ..).mp whole).2.2.1, error, ?_⟩
    simp [build, failed, bind, Except.bind]

theorem settled (t : ConstantTree) : t.Settled := by
  induction t with
  | literal pos number ty =>
    refine .inl ⟨?_, ty, rfl, congrArg Except.ok (Build.literal_eq_constant pos number ty)⟩
    simp [Sound, subtrees, DividesByZero, ty?]
  | cast kind target operand ih => exact ih.cast kind target
  | binary scaling pos op left right leftIh rightIh => exact leftIh.binary rightIh scaling pos op

theorem not_sound (t : ConstantTree) : ¬t.Sound ↔ ∃ s ∈ t.subtrees, s.ty? = none ∨ s.DividesByZero := by
  simp only [Sound, not_forall, not_and_or, Classical.not_not, ne_eq, exists_prop]

end ConstantTree

theorem lower_constant (pos : Position) (holds : ty.Holds n) :
    Lower.expression (.constant pos ty n) = { result := .immediate n } := by
  have wrapped : ty.wrap n = n := by rw [Ty.wrap_eq_mod, holds.mod_eq]
  change ({ result := .immediate (ty.wrap n) } : Lowered) = _
  rw [wrapped]

/-- A tree over constants can be built unless one of its subtrees has no type or divides by zero. It is then a literal with
the value of the tree, which fits its type, and it needs no code. -/
theorem constant_trees_fold (t : ConstantTree) :
    ((∃ error, t.build = .error error) ↔ ∃ s ∈ t.subtrees, s.ty? = none ∨ s.DividesByZero) ∧
      ∀ e, t.build = .ok e → ∃ ty, t.ty? = some ty ∧ 0 ≤ t.value ∧ t.value < 2 ^ ty.bits ∧
        e = .literal { pos := t.pos, ty, constant := true, value := t.value } ∧
        Lower.expression e = { code := [], result := .immediate t.value, error := none } := by
  rw [← t.not_sound]
  rcases t.settled with ⟨sound, ty, typed, built⟩ | ⟨flawed, error, failed⟩
  · have holds := ConstantTree.value_holds typed
    refine ⟨by simp [built, sound], fun e made => ?_⟩
    obtain rfl : Expr.constant t.pos ty t.value = e := Except.ok.inj (built.symm.trans made)
    exact ⟨ty, typed, holds.1, holds.2, rfl, lower_constant t.pos holds⟩
  · exact ⟨by simp [failed, flawed], fun e made => by simp [failed] at made⟩

-- `(200 + 100) + (int*) 65535`: the sum wraps at 256 before it moves the pointer, which wraps at the end of memory.
example :
    let sum := ConstantTree.binary .shift .start .add (.literal .start 200 .byte) (.literal .start 100 .byte)
    let moved := ConstantTree.binary .shift .start .add sum (.literal .start 65535 ⟨.int, 1⟩)
    sum.value = 44 ∧ moved.ty? = some ⟨.int, 1⟩ ∧ moved.value = 87 := by decide

end Cb
