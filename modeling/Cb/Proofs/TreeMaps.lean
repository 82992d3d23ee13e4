import Cb.Proofs.Typing

/-! Maps of trees that keep all that a checked construction looks at. Such a construction goes on with the images of
its parts as with the parts themselves. -/

namespace Cb

def Info.relocated (view : Position → Position) (info : Info) : Info := { info with pos := view info.pos }

namespace Expr

structure Keeps (view : Position → Position) (image : Expr → Expr) : Prop where
  info : ∀ e, (image e).info = e.info.relocated view
  literal_eq : ∀ info, image (.literal info) = .literal (info.relocated view)
  deref_eq : ∀ info address displacement,
    image (.deref info address displacement) = .deref (info.relocated view) (image address) displacement
  step_eq : ∀ info target down, image (.step info target down) = .step (info.relocated view) (image target) down
  cast_eq : ∀ info operand, image (.cast info operand) = .cast (info.relocated view) (image operand)
  call_eq : ∀ info name given, image (.call info name given) = .call (info.relocated view) name (given.map image)
  binary_eq : ∀ info {op left} right, op = .assign ∨ left.ty.isArithmetic = true →
    image (.binary info op left right) = .binary (info.relocated view) op (image left) (image right)
  splitAddress_eq : ∀ address,
    Build.splitAddress (image address) = (image (Build.splitAddress address).1, (Build.splitAddress address).2)

namespace Keeps

variable {view : Position → Position} {image : Expr → Expr} (keeps : Keeps view image) (e left right : Expr) (target : Ty)
  (pos : Position) (op : Operator) {scaling other : Scaling}

include keeps

theorem pos_eq : (image e).pos = view e.pos := (congrArg Info.pos (keeps.info e) :)

theorem ty_eq : (image e).ty = e.ty := (congrArg Info.ty (keeps.info e) :)

theorem isConstant_eq : (image e).isConstant = e.isConstant := (congrArg Info.constant (keeps.info e) :)

theorem value_eq : (image e).value = e.value := (congrArg Info.value (keeps.info e) :)

theorem isWritable_eq : (image e).isWritable = e.isWritable := (congrArg Info.writable (keeps.info e) :)

theorem usesRegisters_eq : (image e).usesRegisters = e.usesRegisters := (congrArg Info.usesRegisters (keeps.info e) :)

theorem alike {one another : Expr} (same : image one = image another) : view one.pos = view another.pos ∧
    one.ty = another.ty ∧ one.isConstant = another.isConstant ∧ one.value = another.value := by
  have infos : one.info.relocated view = another.info.relocated view := by rw [← keeps.info, same, keeps.info]
  exact ⟨(congrArg Info.pos infos :), (congrArg Info.ty infos :), (congrArg Info.constant infos :),
    (congrArg Info.value infos :)⟩

theorem literal (value : Int) : image (Build.literal pos value target) = Build.literal (view pos) value target :=
  keeps.literal_eq _

theorem convert : image (Build.convert e target) = Build.convert (image e) target := by
  simp only [Build.convert, keeps.ty_eq, keeps.isConstant_eq, keeps.pos_eq, keeps.value_eq, keeps.usesRegisters_eq]
  split
  · rfl
  · split
    · exact keeps.literal_eq _
    · exact keeps.cast_eq _ _

theorem cast : Build.cast (image e) target = (Build.cast e target).map image := by
  simp only [Build.cast, keeps.ty_eq, ← keeps.convert]
  split <;> rfl

theorem implicit : Build.implicit (image e) target = (Build.implicit e target).map image := by
  simp only [Build.implicit, keeps.ty_eq, ← keeps.convert]
  split <;> rfl

theorem operation {op : Operator} {left : Expr} (fixed : op = .assign ∨ left.ty.isArithmetic = true) :
    Build.operation (view pos) op (image left) (image right) target = image (Build.operation pos op left right target) :=
  (keeps.binary_eq { pos, ty := target, usesRegisters := true } right fixed).symm

theorem promoted {common : Ty} (number : common.isArithmetic = true) :
    Build.operation (view pos) op (Build.convert (image left) common) (Build.convert (image right) common) target =
      image (Build.operation pos op (Build.convert left common) (Build.convert right common) target) := by
  rw [← keeps.convert, ← keeps.convert, keeps.operation _ _ _ (Or.inr (by rwa [Build.convert_ty]))]

theorem assign : Build.assign (view pos) (image left) (image right) = (Build.assign pos left right).map image := by
  simp only [Build.assign, keeps.isWritable_eq, keeps.ty_eq, ← keeps.convert, keeps.operation _ _ _ (Or.inl rfl)]
  repeat' split
  all_goals rfl

theorem shift : Build.shift (view pos) op (image left) (image right) = (Build.shift pos op left right).map image := by
  simp only [Build.shift, keeps.isConstant_eq, keeps.ty_eq, keeps.value_eq, ← keeps.literal]
  split
  · rfl
  split
  · rfl
  rename_i numbers
  simp only [Bool.or_eq_true, not_or, Bool.not_eq_true', Bool.not_eq_false] at numbers
  rw [keeps.operation _ _ _ (Or.inr numbers.1)]
  split <;> rfl

theorem comparable : image (Build.comparable e) = Build.comparable (image e) := by
  simp only [Build.comparable, keeps.ty_eq]
  split
  · exact keeps.convert e .int
  · rfl

theorem convert_value : (Build.convert (image e) target).value = (Build.convert e target).value := by
  rw [← keeps.convert, keeps.value_eq]

theorem compare : Build.compare (view pos) op (image left) (image right) = (Build.compare pos op left right).map image := by
  simp only [Build.compare, ← keeps.comparable, keeps.ty_eq, Build.convert_isConstant, keeps.isConstant_eq,
    keeps.convert_value, keeps.promoted _ _ _ _ _ (Ty.promote_isArithmetic _ _), ← keeps.literal]
  repeat' split
  all_goals rfl

theorem arithmetic :
    Build.arithmetic (view pos) op (image left) (image right) = (Build.arithmetic pos op left right).map image := by
  simp only [Build.arithmetic, keeps.ty_eq, Build.convert_isConstant, keeps.isConstant_eq, keeps.convert_value,
    keeps.promoted _ _ _ _ _ (Ty.promote_isArithmetic _ _), ← keeps.literal]
  split
  · rfl
  · split
    · cases Build.evaluate op (Build.convert left (.promote left.ty right.ty)).value
        (Build.convert right (.promote left.ty right.ty)).value <;> rfl
    · rfl

theorem binary (moved : ∀ pointer index, op.isAdditive = true → pointer.ty.isPointer = true →
      Build.pointerArithmetic scaling (view pos) op (image pointer) (image index) =
        (Build.pointerArithmetic other pos op pointer index).map image) :
    Build.binary scaling (view pos) op (image left) (image right) = (Build.binary other pos op left right).map image := by
  simp only [Build.binary, keeps.ty_eq]
  split
  · exact keeps.assign left right pos
  split
  · exact keeps.shift left right pos op
  split
  · exact keeps.compare left right pos op
  split
  · rename_i swapped
    simp only [Bool.and_eq_true, decide_eq_true_eq] at swapped
    exact moved right left (by simp [Operator.isAdditive, swapped]) swapped.1.2
  split
  · rename_i added
    simp only [Bool.and_eq_true] at added
    exact moved left right added.1.1 added.1.2
  · exact keeps.arithmetic left right pos op

theorem deref : Build.deref (view pos) (image e) = (Build.deref pos e).map image := by
  simp only [Build.deref, keeps.ty_eq, keeps.splitAddress_eq]
  split
  · rfl
  · split
    · rfl
    · rw [Except.map, keeps.deref_eq]
      rfl

theorem index {base index : Expr} (moved : base.ty.isPointer = true →
      Build.pointerArithmetic scaling (view pos) .add (image base) (image index) =
        (Build.pointerArithmetic other pos .add base index).map image) :
    Build.index scaling (view pos) (image base) (image index) = (Build.index other pos base index).map image := by
  simp only [Build.index, keeps.ty_eq, bind, Except.bind]
  cases isPointer : base.ty.isPointer with
  | false => rfl
  | true =>
    cases index.ty.isArithmetic with
    | false => rfl
    | true =>
      rw [moved isPointer]
      cases Build.pointerArithmetic other pos .add base index with
      | error => rfl
      | ok address => exact keeps.deref address pos

theorem step (down : Bool) : Build.step (view pos) (image e) down = (Build.step pos e down).map image := by
  simp only [Build.step, keeps.isWritable_eq, keeps.ty_eq, keeps.usesRegisters_eq]
  split
  · rfl
  · split
    · rfl
    · rw [Except.map, keeps.step_eq]
      rfl

theorem arguments (given : List Expr) (params : List Param) :
    Build.arguments (given.map image) params = (Build.arguments given params).map (List.map image) := by
  induction given generalizing params with
  | nil => cases params <;> rfl
  | cons e rest ih =>
    cases params with
    | nil => rfl
    | cons param params =>
      simp only [List.map_cons, Build.arguments, keeps.implicit, ih, bind, Except.bind]
      cases Build.implicit e param.ty with
      | error => rfl
      | ok => cases Build.arguments rest params <;> rfl

theorem call (callee : Signature) (given : List Expr) :
    Build.call (view pos) callee (given.map image) = (Build.call pos callee given).map image := by
  simp only [Build.call, List.length_map, keeps.arguments, bind, Except.bind]
  split
  · rfl
  · cases Build.arguments given callee.params with
    | error => rfl
    | ok converted =>
      simp only [Except.map, pure, Except.pure, keeps.call_eq]
      rfl

end Keeps

end Expr

end Cb
