import Cb.Lower.Statement
import Cb.Proofs.Meaning

/-! Running the code of a tree without side effects: it ends with the tree's value in the result
operand, and it disturbs nothing from the stack pointer upwards. -/

namespace Cb

namespace Lower

theorem lowByte_isVolatile (o : Operand) : o.lowByte.isVolatile = o.isVolatile := by
  simp only [Operand.isVolatile, lowByte_kind]

end Lower

variable {known : Vocabulary} {e : Expr}

theorem Typed.steady (typed : Typed known e) (isPure : e.isPure = true) (free : e.usesRegisters = false) :
    (Lower.expression e).code = [] ∧ (Lower.expression e).result.isVolatile = false := by
  induction typed with
  | literal | var => exact ⟨rfl, rfl⟩
  | deref | addressOfVar | addressOfDeref | call | assign | arithmetic | pointer | shift | comparison => cases free
  | step => cases isPure
  | cast inner named varies changes legal ih =>
    rename_i pos ty operand
    have unused : (operand.usesRegisters || decide (operand.ty.size < ty.size)) = false := free
    simp only [Bool.or_eq_false_iff, decide_eq_false_iff_not] at unused
    obtain ⟨noCode, steady⟩ := ih isPure unused.1
    change (Lower.conversion (Lower.expression operand) operand.ty.size ty.size).code = [] ∧
      (Lower.conversion (Lower.expression operand) operand.ty.size ty.size).result.isVolatile = false
    simp only [Lower.conversion]
    split
    · exact ⟨noCode, steady⟩
    · rw [if_pos (by omega)]
      exact ⟨noCode, by rw [Lower.lowByte_isVolatile]; exact steady⟩

structure Lowered.Evaluates (l : Lowered) (m : Machine) (w : Width) (value : Int) : Prop where
  supplies : l.Supplies (fun _ => 0) w
  computes : ∀ n, m.Sees n → stackDepth l.code ≤ n.sp.toNat →
    Runs n l.code fun k => n.Kept k ∧ k.Holds w l.result value

namespace Lower

structure Ready (m n : Machine) (o : Operands) (a b : Int) : Prop where
  bp : n.bp = m.bp
  memory : ∀ c, m.sp ≤ c → n.memory c = m.memory c
  right : n.get o.width o.right = some b
  saved : o.saved = true → n.sp + .ofNat 16 o.width.bytes = m.sp ∧ n.memory.load o.width n.sp = a
  unsaved : o.saved = false → n.sp = m.sp ∧ n.get o.width o.left = some a

variable {m n k : Machine} {w : Width} {a b value : Int} {o : Operand} {left right : Lowered} {op : Operator}
  {target : Register}

theorem pushed_cells {sp : Address} (room : w.bytes ≤ sp.toNat) :
    ∀ b ∈ w.cells (sp - .ofNat 16 w.bytes), sp - .ofNat 16 w.bytes ≤ b ∧ ¬ sp ≤ b := by
  intro b cell
  cases w with
  | byte =>
    simp only [Width.cells, List.mem_singleton, Width.bytes] at *
    subst cell
    bv_omega
  | word =>
    simp only [Width.cells, List.mem_cons, List.not_mem_nil, or_false, Width.bytes] at *
    rcases cell with rfl | rfl <;> bv_omega

structure Spilled (n k : Machine) (w : Width) (value : Int) : Prop where
  sees : n.Sees k
  sp : k.sp + .ofNat 16 w.bytes = n.sp
  value : k.memory.load w k.sp = value

theorem spilled_of_push (room : w.bytes ≤ n.sp.toNat) (bp : k.bp = n.bp) (sp : k.sp = n.sp - .ofNat 16 w.bytes)
    (memory : k.memory = n.memory.store w k.sp value) (lower : 0 ≤ value) (upper : value < w.modulus) :
    Spilled n k w value := by
  refine ⟨⟨bp, ?_, ?_⟩, ?_, ?_⟩
  · rw [sp]
    cases w <;> simp only [Width.bytes] at * <;> bv_omega
  · intro c above
    rw [memory, sp]
    exact Memory.store_of_not_mem _ _ fun cell => (pushed_cells room c cell).2 above
  · rw [sp, BitVec.sub_add_cancel]
  · rw [memory, Memory.load_store]
    exact Int.emod_eq_of_lt lower upper

theorem Spilled.lowered (spilled : Spilled n k w value) (room : w.bytes ≤ n.sp.toNat) :
    k.sp.toNat + w.bytes = n.sp.toNat := by
  have start := spilled.sp
  cases w <;> simp only [Width.bytes] at * <;> bv_omega

theorem Spilled.kept (spilled : Spilled n k w value) (room : w.bytes ≤ n.sp.toNat) (kept : k.Kept j) :
    Spilled n j w value := by
  refine ⟨spilled.sees.trans kept.sees, by rw [kept.sp]; exact spilled.sp, ?_⟩
  rw [kept.sp, ← spilled.value]
  refine Memory.load_congr fun c cell => kept.memory c ?_
  have start : k.sp = n.sp - .ofNat 16 w.bytes := by rw [← spilled.sp, BitVec.add_sub_cancel]
  rw [start] at cell ⊢
  exact (pushed_cells room c cell).1

theorem spill_runs (evaluates : left.Evaluates m w a) (volatile : left.result.isVolatile = true) (sees : m.Sees n)
    (depth : stackDepth left.code ≤ n.sp.toNat) (room : w.bytes ≤ n.sp.toNat) :
    Runs n (left.code ++ save w left.result) fun k => Spilled n k w a := by
  refine (evaluates.computes n sees depth).append fun k computed => ?_
  obtain ⟨kept, held⟩ := computed
  obtain ⟨lower, upper⟩ := Machine.get_bounds held.value
  refine Runs.save held.value volatile fun j bp sp memory => ?_
  have spilled := spilled_of_push (kept.sp ▸ room) bp sp memory lower upper
  exact ⟨kept.sees.trans spilled.sees, by rw [spilled.sp, kept.sp], spilled.value⟩

theorem isGeneral_of_fits (fits : (Operand.register r).fits w = true) : r.isGeneral = true ∧ r.width = w := by
  have each : ∀ r ∈ Register.carriers w, r.isGeneral = true ∧ r.width = w := by cases w <;> decide
  exact each r (of_decide_eq_true fits)

theorem register_of_kind (fits : o.fits w = true) (isRegister : o.kind = .register) (held : m.get w o = some value) :
    ∃ r, o = .register r ∧ r.isGeneral = true ∧ r.width = w ∧ m.read r = value := by
  cases o with
  | none | immediate | frame | data => cases isRegister
  | register r =>
    obtain ⟨general, wide⟩ := isGeneral_of_fits fits
    exact ⟨r, rfl, general, wide, Machine.read_of_get wide held⟩

structure Fetched (m n : Machine) (w : Width) (left : Operand) (right : Operand) (a b : Int) : Prop where
  kept : m.Kept n
  right : n.get w right = some b
  left : ∃ r, left = .register r ∧ r.isGeneral = true ∧ r.width = w ∧ n.read r = a

theorem take_runs {o : Operands} (ready : Ready m n o a b) (free : o.right ≠ .register .stack)
    (general : target.isGeneral = true) (wide : target.width = o.width) (avoids : o.right.avoids target = true) :
    Runs n [if o.saved then load o.width (register target) else .mov (register target) o.left] fun k =>
      m.Kept k ∧ k.get o.width o.right = some b ∧ k.read target = a := by
  have kept (value : Int) : (n.write value target).get o.width o.right = some b := by
    rw [n.get_write_of_avoids value general o.width avoids]
    exact ready.right
  split
  · rename_i saved
    obtain ⟨sp, value⟩ := ready.saved saved
    refine Runs.load wide general fun k alike level => ⟨⟨?_, ?_, ?_⟩, ?_, ?_⟩
    · rw [alike.bp, n.write_bp _ general, ready.bp]
    · rw [level, sp]
    · intro c above
      rw [alike.memory, n.write_memory, ready.memory c above]
    · rw [alike.get o.width free]
      exact kept _
    · rw [alike.read (Register.ne_stack_of_isGeneral general), n.read_write_of_lt, value]
      · exact Memory.load_nonneg n.memory o.width n.sp
      · exact wide ▸ Memory.load_lt n.memory o.width n.sp
  · rename_i unsaved
    obtain ⟨level, value⟩ := ready.unsaved (by simpa using unsaved)
    obtain ⟨lower, upper⟩ := Machine.get_bounds value
    have start : m.Kept n := ⟨ready.bp, level, ready.memory⟩
    exact Runs.mov target (wide ▸ value)
      ⟨start.write a general, kept a, n.read_write_of_lt target lower (wide ▸ upper)⟩

theorem fetchLeft_runs {o : Operands} (ready : Ready m n o a b) (leftFits : o.left.fits o.width = true)
    (rightFits : o.right.fits o.width = true) (general : target.isGeneral = true) (wide : target.width = o.width)
    (avoids : o.right.avoids target = true) :
    Runs n (fetchLeft o target).1 fun k => Fetched m k o.width (fetchLeft o target).2 o.right a b := by
  have taken := take_runs ready (Operand.ne_stack_of_fits rightFits) general wide avoids
  have done (k : Machine) (facts : m.Kept k ∧ k.get o.width o.right = some b ∧ k.read target = a) :
      Fetched m k o.width (register target) o.right a b :=
    ⟨facts.1, facts.2.1, target, rfl, general, wide, facts.2.2⟩
  simp only [fetchLeft]
  split
  · rename_i saved
    rw [if_pos saved] at taken
    exact taken.imp done
  · rename_i unsaved
    rw [if_neg unsaved] at taken
    split
    · rename_i isRegister
      obtain ⟨level, value⟩ := ready.unsaved (by simpa using unsaved)
      exact Runs.nil ⟨⟨ready.bp, level, ready.memory⟩, ready.right, register_of_kind leftFits isRegister value⟩
    · exact taken.imp done

theorem avoids_partner (fits : o.fits w = true) (isRegister : o.kind = .register) : o.avoids (partner w o) = true := by
  cases o with
  | none | immediate | frame | data => cases isRegister
  | register r =>
    have each : ∀ r ∈ Register.carriers w, (Operand.register r).avoids (partner w (.register r)) = true := by
      cases w <;> decide
    exact each r (of_decide_eq_true fits)

theorem avoids_accumulator (noRegister : o.kind ≠ .register) : o.avoids (accumulator w) = true := by
  cases o with
  | register => exact absurd rfl noRegister
  | none | immediate | frame => rfl
  | data v base displacement => cases base <;> cases w <;> rfl

theorem avoids_taker {o : Operands} (fits : o.right.fits o.width = true) : o.right.avoids o.taker = true := by
  rw [Operands.taker]
  split
  · rename_i isRegister
    exact avoids_partner fits isRegister
  · rename_i noRegister
    exact avoids_accumulator noRegister

theorem accumulator_isGeneral (w : Width) : (accumulator w).isGeneral = true ∧ (accumulator w).width = w :=
  isGeneral_of_fits (accumulator_fits w)

theorem apply_runs {left right : Operand} (writes : instr ≠ .cmp) (fetched : Fetched m n w left right a b) :
    Runs n [.arithmetic instr left right] fun k => m.Kept k ∧ k.Holds w left (instr.apply a b % w.modulus) := by
  obtain ⟨r, rfl, general, wide, value⟩ := fetched.left
  refine Runs.arithmetic writes general (wide ▸ fetched.right) fun k alike level => ⟨?_, .of_register wide ?_⟩
  · refine (fetched.kept.write (instr.apply (n.read r) b) general).alike alike ?_
    rw [level, n.write_sp _ general]
  · rw [alike.read (Register.ne_stack_of_isGeneral general), n.read_write, value, wide]

theorem arithmetic?_meaning (found : arithmetic? op = some instr) (a b : Int) :
    instr ≠ .cmp ∧ instr.apply a b = op.meaning a b ∧
      (isSwappable op = true → instr.apply b a = op.meaning a b) := by
  cases op <;> cases found
  · exact ⟨by decide, rfl, fun _ => by simp only [Arithmetic.apply, Operator.meaning, Nat.or_comm]⟩
  · exact ⟨by decide, rfl, fun _ => by simp only [Arithmetic.apply, Operator.meaning, Nat.and_comm]⟩
  · exact ⟨by decide, rfl, fun _ => by simp only [Arithmetic.apply, Operator.meaning, Nat.xor_comm]⟩
  · exact ⟨by decide, rfl, fun _ => Int.add_comm b a⟩
  · exact ⟨by decide, rfl, fun swaps => by cases swaps⟩

theorem satisfy_ofResult (comparison : op.isComparison = true) (aLower : 0 ≤ a) (aUpper : a < w.modulus)
    (bLower : 0 ≤ b) (bUpper : b < w.modulus) : (Flags.ofResult w (a - b)).satisfy op = true ↔ op.meaning a b = 1 := by
  have zero : (a - b) % w.modulus = 0 ↔ a = b := by
    cases w <;> simp only [Width.modulus] at * <;> omega
  have carry : (a - b < 0 ∨ w.modulus ≤ a - b) ↔ a < b := by omega
  cases op with
  | assign | shiftLeft | shiftRight | or | and | xor | add | subtract | multiply | divide | modulo => cases comparison
  | equal => simp [Flags.satisfy, Flags.ofResult, Operator.meaning, zero]
  | notEqual => simp [Flags.satisfy, Flags.ofResult, Operator.meaning, zero]
  | unknown code => simp [Flags.satisfy, Operator.meaning]
  | less => simpa [Flags.satisfy, Flags.ofResult, Operator.meaning] using carry
  | greaterEqual =>
    simp [Flags.satisfy, Flags.ofResult, Operator.meaning]
    omega
  | greater =>
    simp [Flags.satisfy, Flags.ofResult, Operator.meaning, zero]
    omega
  | lessEqual =>
    simp [Flags.satisfy, Flags.ofResult, Operator.meaning, zero]
    omega

theorem move_runs (kept : m.Kept n) (held : n.get w o = some value) (general : target.isGeneral = true)
    (wide : target.width = w) :
    Runs n (if o = register target then [] else [.mov (register target) o]) fun k =>
      m.Kept k ∧ k.read target = value := by
  split
  · rename_i here
    rw [here] at held
    exact Runs.nil ⟨kept, Machine.read_of_get wide held⟩
  · obtain ⟨lower, upper⟩ := Machine.get_bounds held
    exact Runs.mov target (wide ▸ held)
      ⟨kept.write value general, n.read_write_of_lt target lower (wide ▸ upper)⟩

theorem shift_evaluates (kind : op.isShift = true) (leftEvaluates : left.Evaluates m w a)
    (fixed : right = { result := .immediate count }) :
    (shift op left right w).Evaluates m w (op.meaning a count % w.modulus) := by
  refine ⟨shift_supplies op leftEvaluates.supplies fixed, ?_⟩
  subst fixed
  obtain ⟨general, wide⟩ := accumulator_isGeneral w
  intro n sees room
  simp only [shift, Operand.kind, ne_eq, not_true_eq_false, ↓reduceIte, List.append_nil] at room ⊢
  have depth := stackDepth_left (stackDepth_left room)
  refine ((leftEvaluates.computes n sees depth).append fun k computed =>
    move_runs computed.1 computed.2.value general wide).append fun k moved => ?_
  obtain ⟨kept, value⟩ := moved
  have done (result : Int) (j : Machine) (alike : (k.write result (accumulator w)).Alike j) (level : j.sp = k.sp) :
      n.Kept j ∧ j.Holds w (register (accumulator w)) (result % w.modulus) := by
    refine ⟨(kept.write result general).alike alike (by rw [level, k.write_sp _ general]), .of_register wide ?_⟩
    rw [alike.read (Register.ne_stack_of_isGeneral general), k.read_write, wide]
  simp only [Operator.isShift, Bool.or_eq_true, decide_eq_true_eq] at kind
  rcases kind with rfl | rfl
  · exact Runs.shifted rfl general fun j alike level => value ▸ done _ j alike level
  · exact Runs.shifted rfl general fun j alike level => value ▸ done _ j alike level

theorem avoids_counter (fits : o.fits v = true) : o.avoids (counter w) = true := by
  cases o with
  | none | immediate | frame => rfl
  | data v base displacement => cases base <;> cases w <;> rfl
  | register r =>
    have each : ∀ r ∈ Register.carriers v, (Operand.register r).avoids (counter w) = true := by
      cases v <;> cases w <;> decide
    exact each r (of_decide_eq_true fits)

theorem counter_isGeneral (w : Width) : (counter w).isGeneral = true ∧ (counter w).width = w := by
  cases w <;> exact ⟨rfl, rfl⟩

theorem multiplier_runs {o : Operands} (ready : Ready m n o a b) (leftFits : o.left.fits o.width = true)
    (rightFits : o.right.fits o.width = true) :
    Runs n (multiplier o.width o.right).1 fun k =>
      Ready m k { o with right := (multiplier o.width o.right).2 } a b := by
  simp only [multiplier]
  split
  · exact Runs.nil ready
  · obtain ⟨general, wide⟩ := counter_isGeneral o.width
    obtain ⟨lower, upper⟩ := Machine.get_bounds ready.right
    have distinct : o.right ≠ register (counter o.width) := by
      intro same
      rw [same] at rightFits
      cases shape : o.width <;> rw [shape] at rightFits <;> exact absurd rightFits (by decide)
    rw [if_neg distinct]
    refine Runs.mov (counter o.width) (wide ▸ ready.right) ⟨?_, ?_, ?_, ?_, ?_⟩
    · rw [n.write_bp _ general, ready.bp]
    · intro c above
      rw [n.write_memory, ready.memory c above]
    · have upper : b < (counter o.width).width.modulus := by rw [wide]; exact upper
      exact (Machine.Holds.of_register wide (n.read_write_of_lt (counter o.width) lower upper)).value
    · intro saved
      rw [n.write_sp _ general, n.write_memory]
      exact ready.saved saved
    · intro unsaved
      rw [n.write_sp _ general, n.get_write_of_avoids _ general _ (avoids_counter leftFits)]
      exact ready.unsaved unsaved

theorem multiplier_source {right : Operand} (fits : right.fits w = true) :
    (multiplier w right).2.width? = some w ∧ (multiplier w right).2.avoids (accumulator w) = true ∧
      (multiplier w right).2.avoids w.upper = true ∧ (multiplier w right).2 ≠ .register .stack := by
  cases right with
  | none => cases fits
  | immediate | register =>
    rw [show (multiplier w _).2 = register (counter w) from rfl]
    cases w <;> decide
  | frame v offset =>
    cases of_decide_eq_true fits
    exact ⟨rfl, rfl, rfl, nofun⟩
  | data v base displacement =>
    cases of_decide_eq_true fits
    cases base <;> cases w <;> exact ⟨rfl, rfl, rfl, nofun⟩

theorem accumulate_runs {o : Operands} (ready : Ready m n o a b) (free : o.right ≠ .register .stack)
    (avoids : o.right.avoids (accumulator o.width) = true) :
    Runs n (if o.saved then [load o.width (register (accumulator o.width))]
        else if o.left = register (accumulator o.width) then []
        else [.mov (register (accumulator o.width)) o.left]) fun k =>
      m.Kept k ∧ k.get o.width o.right = some b ∧ k.read (accumulator o.width) = a := by
  obtain ⟨general, wide⟩ := accumulator_isGeneral o.width
  have taken := take_runs ready free general wide avoids
  split
  · rename_i saved
    rw [if_pos saved] at taken
    exact taken
  · rename_i unsaved
    rw [if_neg unsaved] at taken
    split
    · rename_i here
      obtain ⟨level, value⟩ := ready.unsaved (by simpa using unsaved)
      rw [here] at value
      exact Runs.nil ⟨⟨ready.bp, level, ready.memory⟩, ready.right, Machine.read_of_get wide value⟩
    · exact taken

theorem upper_isGeneral (w : Width) : w.upper.isGeneral = true ∧ w.upper.width = w ∧
    w.upper.isApart (accumulator w) = true ∧ (accumulator w).isApart w.upper = true := by
  cases w <;> decide

theorem multiply_runs {source : Operand} (kept : m.Kept n) (wide : source.width? = some w)
    (held : n.get w source = some b) (value : n.read (accumulator w) = a) :
    Runs n [.mul source] fun k => m.Kept k ∧ k.Holds w (register (accumulator w)) (a * b % w.modulus) := by
  obtain ⟨general, isWide⟩ := accumulator_isGeneral w
  obtain ⟨upperGeneral, -, apart, -⟩ := upper_isGeneral w
  refine Runs.mul wide held fun k alike level => ⟨?_, .of_register isWide ?_⟩
  · refine ((kept.write _ general).write _ upperGeneral).alike alike ?_
    rw [level, Machine.write_sp _ _ upperGeneral, n.write_sp _ general]
  · rw [alike.read (Register.ne_stack_of_isGeneral general), Machine.read_write_of_isApart _ _ upperGeneral apart,
      n.read_write, value, isWide]

theorem divide_runs {source : Operand} (kept : m.Kept n) (wide : source.width? = some w)
    (avoids : source.avoids w.upper = true) (held : n.get w source = some b) (value : n.read (accumulator w) = a)
    (nonzero : b ≠ 0) :
    Runs n [.mov (register w.upper) (.immediate 0), .div source] fun k =>
      m.Kept k ∧ k.Holds w (register (accumulator w)) (a / b % w.modulus) ∧
        k.Holds w (register w.upper) (a % b % w.modulus) := by
  obtain ⟨general, isWide⟩ := accumulator_isGeneral w
  obtain ⟨upperGeneral, upperWide, apart, -⟩ := upper_isGeneral w
  refine Runs.cons (Runs.mov w.upper rfl rfl) ?_
  rintro k rfl
  have cleared : (n.write (0 % w.upper.width.modulus) w.upper).read w.upper = 0 := by
    rw [n.read_write, Int.zero_emod, Int.zero_emod]
  have still : (n.write (0 % w.upper.width.modulus) w.upper).read (accumulator w) = a := by
    rw [n.read_write_of_isApart _ upperGeneral apart, value]
  refine Runs.div wide ?_ cleared nonzero ⟨?_, .of_register isWide ?_, .of_register upperWide ?_⟩
  · rw [n.get_write_of_avoids _ upperGeneral w avoids, held]
  · exact ((kept.write _ upperGeneral).write _ general).write _ upperGeneral
  · rw [Machine.read_write_of_isApart _ _ upperGeneral apart, Machine.read_write, still, isWide]
  · rw [Machine.read_write, still, upperWide]

structure Sides (m : Machine) (w : Width) (uses : Bool) (one other : Lowered) (a b : Int) : Prop where
  left : one.Evaluates m w a
  right : other.Evaluates m w b
  steady : uses = false → other.code = []

section

variable (sides : Sides m w uses left right a b)

include sides

theorem operands_ready (sees : m.Sees n)
    (room : stackDepth (operands left right w uses).code ≤ n.sp.toNat) :
    Runs n (operands left right w uses).code fun k => Ready n k (operands left right w uses) a b := by
  have leftNet := sides.left.supplies.level.2
  have rightDepth := stackDepth_nonneg right.code
  by_cases saved : (left.result.isVolatile && uses) = true
  · obtain ⟨volatile, used⟩ := Bool.and_eq_true_iff.mp saved
    have saveNet : netEffect (fun _ => 0) (save w left.result) = -w.bytes := (save_shifts w left.result).2
    simp only [operands, saved, ↓reduceIte, stackDepth_append, netEffect_append, leftNet, saveNet] at room ⊢
    have enough : w.bytes ≤ n.sp.toNat := by omega
    refine (spill_runs sides.left volatile sees (by omega) enough).append fun k spilled => ?_
    have lowered := spilled.lowered enough
    refine (sides.right.computes k (sees.trans spilled.sees) (by omega)).imp fun j computed => ?_
    obtain ⟨kept, held⟩ := computed
    have still := spilled.kept enough kept
    exact ⟨still.sees.bp, still.sees.memory, held.value, fun _ => ⟨still.sp, still.value⟩, fun direct => by cases direct⟩
  · simp only [operands, saved, stackDepth_append, netEffect_append, leftNet] at room ⊢
    simp only [Bool.false_eq_true, ↓reduceIte, List.append_nil, netEffect_nil] at room ⊢
    refine (sides.left.computes n sees (by omega)).append fun k computed => ?_
    obtain ⟨kept, held⟩ := computed
    have depth : stackDepth right.code ≤ k.sp.toNat := by
      rw [kept.sp]
      omega
    obtain ⟨j, ran, keptRight, heldRight⟩ := sides.right.computes k (sees.trans kept.sees) depth
    have whole := kept.trans keptRight
    refine ⟨j, ran, whole.bp, whole.memory, heldRight.value, (fun spilled => by cases spilled), fun _ => ⟨whole.sp, ?_⟩⟩
    by_cases volatile : left.result.isVolatile = true
    · -- The right operand has no code, so that nothing happened to the left one.
      rw [sides.steady (by simpa [volatile] using saved)] at ran
      cases ran
      exact held.value
    · exact (held.of_kept keptRight (by simpa using volatile)).value

theorem operands_fetched (sees : m.Sees n) : let o := operands left right w uses
    stackDepth o.code ≤ n.sp.toNat → Runs n (o.code ++ (fetchLeft o o.taker).1) fun k =>
      Fetched n k w (fetchLeft o o.taker).2 right.result a b := by
  intro o room
  obtain ⟨general, wide⟩ := isGeneral_of_fits o.taker_fits
  refine (operands_ready sides sees room).append fun k ready => ?_
  exact fetchLeft_runs ready sides.left.supplies.fits sides.right.supplies.fits general wide
    (avoids_taker sides.right.supplies.fits)

theorem twoOperand_evaluates (found : arithmetic? op = some instr) :
    (twoOperand op instr (operands left right w uses)).Evaluates m w (op.meaning a b % w.modulus) := by
  refine ⟨(twoOperand_supplies uses sides.left.supplies sides.right.supplies op instr).1, ?_⟩
  intro n sees room
  obtain ⟨writes, meaning, swaps⟩ := arithmetic?_meaning found a b
  have rightFits := sides.right.supplies.fits
  rcases twoOperand_shape op instr (o := operands left right w uses) rightFits with
    ⟨isRegister, unsaved, swappable, shape⟩ | shape
  · rw [shape] at room ⊢
    have depth := stackDepth_left room
    refine (operands_ready sides sees depth).append fun k ready => ?_
    have start := ready.unsaved unsaved
    rw [← swaps swappable]
    exact apply_runs writes ⟨⟨ready.bp, start.1, ready.memory⟩, start.2,
      register_of_kind rightFits isRegister ready.right⟩
  · rw [shape] at room ⊢
    have depth := stackDepth_left (stackDepth_left room)
    rw [← meaning]
    exact (operands_fetched sides sees depth).append fun k => apply_runs writes

theorem comparison_runs (kind : op.isComparison = true) (sees : m.Sees n)
    (room : stackDepth (comparison op (operands left right w uses)).code ≤ n.sp.toNat) :
    Runs n (comparison op (operands left right w uses)).code fun k =>
      n.Kept k ∧ (k.flags.satisfy op = true ↔ op.meaning a b = 1) := by
  have rightFits := sides.right.supplies.fits
  have fixed : isSwappable op = false := by
    cases op <;> first | rfl | cases kind
  rcases twoOperand_shape op .cmp (o := operands left right w uses) rightFits with
    ⟨-, -, swappable, -⟩ | shape
  · rw [fixed] at swappable
    cases swappable
  · simp only [comparison, shape] at room ⊢
    have depth := stackDepth_left (stackDepth_left room)
    refine (operands_fetched sides sees depth).append fun k fetched => ?_
    obtain ⟨r, isRegister, isGeneral, isWide, value⟩ := fetched.left
    rw [isRegister]
    have aBounds := k.read_bounds r
    have bBounds := Machine.get_bounds fetched.right
    rw [value, isWide] at aBounds
    refine Runs.compare (isWide ▸ fetched.right) ⟨fetched.kept.alike ⟨rfl, rfl, rfl⟩ rfl, ?_⟩
    rw [value, isWide]
    exact satisfy_ofResult kind aBounds.1 aBounds.2 bBounds.1 bBounds.2

theorem multiplication_evaluates (kind : op = .multiply ∨ op = .divide ∨ op = .modulo)
    (nonzero : op.isDivision = true → b ≠ 0) :
    (multiplication op (operands left right w uses)).Evaluates m w (op.meaning a b % w.modulus) := by
  refine ⟨(multiplication_supplies uses sides.left.supplies sides.right.supplies op).1, ?_⟩
  intro n sees room
  have leftFits := sides.left.supplies.fits
  have rightFits := sides.right.supplies.fits
  obtain ⟨wide, avoids, avoidsUpper, free⟩ := multiplier_source rightFits
  have present : right.result ≠ .none := by
    intro missing
    rw [missing] at rightFits
    cases rightFits
  have ready (depth : stackDepth (operands left right w uses).code ≤ n.sp.toNat) :=
    ((operands_ready sides sees depth).append fun k ready =>
      multiplier_runs ready leftFits rightFits).append fun k ready => accumulate_runs ready free avoids
  simp only [multiplication, show (operands left right w uses).right ≠ .none from present, ↓reduceIte] at room ⊢
  rcases kind with rfl | division
  · simp only [↓reduceIte] at room ⊢
    have depth := stackDepth_left room
    rw [List.append_assoc] at depth
    refine (ready (stackDepth_left depth)).append fun k facts => ?_
    exact multiply_runs facts.1 wide facts.2.1 facts.2.2
  · have divides : op.isDivision = true := by
      rcases division with rfl | rfl <;> rfl
    have noMultiply : op ≠ .multiply := by
      rcases division with rfl | rfl <;> decide
    simp only [noMultiply, ↓reduceIte] at room ⊢
    have depth := stackDepth_left room
    rw [List.append_assoc] at depth
    refine (ready (stackDepth_left depth)).append fun k facts => ?_
    refine (divide_runs facts.1 wide avoidsUpper facts.2.1 facts.2.2 (nonzero divides)).imp fun j done => ?_
    rcases division with rfl | rfl
    · exact ⟨done.1, done.2.1⟩
    · exact ⟨done.1, done.2.2⟩

theorem binary_evaluates (leftUses : Bool) (kind : op.isArithmetic = true) (nonzero : op.isDivision = true → b ≠ 0) :
    (binary op left right w leftUses uses).Evaluates m w (op.meaning a b % w.modulus) := by
  have direct (instr : Arithmetic) (found : arithmetic? op = some instr) :=
    twoOperand_evaluates sides found
  have product (which : op = .multiply ∨ op = .divide ∨ op = .modulo) :=
    multiplication_evaluates sides which nonzero
  cases op with
  | add => exact direct .add rfl
  | subtract => exact direct .sub rfl
  | and => exact direct .and rfl
  | or => exact direct .or rfl
  | xor => exact direct .xor rfl
  | multiply | divide | modulo => exact product (by simp)
  | assign | less | greater | greaterEqual | lessEqual | notEqual | equal | shiftLeft | shiftRight
  | unknown => cases kind

end

theorem ofInt_emod_add (value n : Int) : BitVec.ofInt 16 (value % 65536 + n) = BitVec.ofInt 16 (value + n) := by
  apply BitVec.eq_of_toNat_eq
  simp only [BitVec.toNat_ofInt]
  omega

theorem ofInt_toNat_add (a : Address) (n : Int) : BitVec.ofInt 16 (a.toNat + n) = a + .ofInt 16 n := by
  apply BitVec.eq_of_toNat_eq
  simp only [BitVec.toNat_ofInt, BitVec.toNat_add]
  omega

theorem toNat_ofInt (n : Int) : ((BitVec.ofInt 16 n).toNat : Int) = n % 65536 := by
  simp only [BitVec.toNat_ofInt]
  omega

theorem holds_of_located {a : Address} (sees : m.Sees k) (wide : o.width? = some w) (located : k.address? o = some a)
    (clear : Clear m.sp w a) : k.Holds w o (m.memory.load w a) := by
  have same : k.memory.load w a = m.memory.load w a :=
    Memory.load_congr fun b cell => sees.memory b (clear b cell)
  refine ⟨?_, fun b found => ?_⟩
  · cases o with
    | none | immediate | register => cases located
    | frame v offset | data v base displacement =>
      cases wide
      simp only [Machine.get, located, ↓reduceIte, Option.map_some, same]
  · rw [located] at found
    cases found
    exact clear.mono sees.sp

theorem dereference_runs (size : Nat) (displacement : Int) (evaluates : address.Evaluates m .word p) (sees : m.Sees n)
    (room : stackDepth (dereference address size displacement).code ≤ n.sp.toNat) :
    Runs n (dereference address size displacement).code fun k => n.Kept k ∧
      k.address? (dereference address size displacement).result = some (.ofInt 16 (p + displacement)) := by
  rcases dereference_cases size displacement evaluates.supplies.fits with ⟨value, isImmediate, shape⟩ | shape
  · rw [shape] at room ⊢
    refine (evaluates.computes n sees room).imp fun k computed => ⟨computed.1, ?_⟩
    have held := computed.2.value
    rw [isImmediate] at held
    cases held
    exact congrArg some (ofInt_emod_add value displacement).symm
  · rw [shape] at room ⊢
    have depth := stackDepth_left room
    refine (evaluates.computes n sees depth).append fun k computed => ?_
    refine (move_runs computed.1 computed.2.value rfl rfl).imp fun j moved => ⟨moved.1, ?_⟩
    simp only [Machine.address?, moved.2]

theorem dereference_evaluates (size : Nat) (displacement : Int) (evaluates : address.Evaluates m .word p)
    (clear : Clear m.sp (.ofSize size) (.ofInt 16 (p + displacement))) :
    (dereference address size displacement).Evaluates m (.ofSize size)
      (m.memory.load (.ofSize size) (.ofInt 16 (p + displacement))) := by
  obtain ⟨supplies, isData⟩ := dereference_supplies size displacement evaluates.supplies
  refine ⟨supplies, fun n sees room => ?_⟩
  refine (dereference_runs size displacement evaluates sees room).imp fun k located => ⟨located.1, ?_⟩
  refine holds_of_located (sees.trans located.1.sees) ?_ located.2 clear
  have fits := supplies.fits
  cases shape : (dereference address size displacement).result with
  | none | immediate | frame | register =>
    rw [shape] at isData
    cases isData
  | data v base inner =>
    rw [shape] at fits
    exact congrArg some (of_decide_eq_true fits)

theorem moveAddress_runs (distance : Int) (kept : m.Kept n) (value : n.read .dx = p) :
    Runs n (moveAddress distance) fun k =>
      m.Kept k ∧ k.Holds .word (register .dx) (BitVec.ofInt 16 (p + distance)).toNat := by
  have bounds := n.read_bounds .dx
  rw [value, show Register.dx.width.modulus = 65536 from rfl] at bounds
  have moved (op : Arithmetic) (amount : Int) (writes : op ≠ .cmp)
      (result : op.apply p (amount % 65536) % 65536 = (p + distance) % 65536) :
      Runs n [.arithmetic op (register .dx) (.immediate amount)] fun k =>
        m.Kept k ∧ k.Holds .word (register .dx) (BitVec.ofInt 16 (p + distance)).toNat := by
    refine Runs.arithmetic writes rfl rfl fun k alike level => ⟨?_, .of_register rfl ?_⟩
    · exact (kept.write _ rfl).alike alike level
    · rw [alike.read (by decide), n.read_write, value, toNat_ofInt]
      exact result
  simp only [moveAddress]
  split
  · rename_i still
    refine Runs.nil ⟨kept, .of_register rfl ?_⟩
    rw [value, toNat_ofInt, still]
    omega
  · split
    · refine moved .sub (-distance) (by decide) ?_
      simp only [Arithmetic.apply]
      omega
    · refine moved .add distance (by decide) ?_
      simp only [Arithmetic.apply]
      omega

theorem frameAddress_evaluates (m : Machine) (offset : Int) :
    (frameAddress offset).Evaluates m .word (m.bp + .ofInt 16 offset).toNat := by
  refine ⟨frameAddress_supplies offset, fun n sees room => ?_⟩
  refine Runs.cons (Runs.mov .dx (n.get_register .base) rfl) ?_
  rintro k rfl
  rw [← ofInt_toNat_add, ← sees.bp]
  refine moveAddress_runs offset ((Machine.Kept.refl n).write _ rfl) ?_
  have bounds := n.read_bounds .base
  exact n.read_write_of_lt .dx bounds.1 bounds.2

theorem dataAddress_evaluates (displacement : Int) (evaluates : address.Evaluates m .word p) :
    (dataAddress address displacement).Evaluates m .word (BitVec.ofInt 16 (p + displacement)).toNat := by
  refine ⟨dataAddress_supplies displacement evaluates.supplies, fun n sees room => ?_⟩
  simp only [dataAddress] at room ⊢
  have depth := stackDepth_left (stackDepth_left room)
  refine ((evaluates.computes n sees depth).append fun k computed =>
    move_runs computed.1 computed.2.value rfl rfl).append fun k moved => ?_
  exact moveAddress_runs displacement moved.1 moved.2

theorem narrow_holds {a : Address} (wide : o.width? = some .byte) (located : m.address? o = some a)
    (clear : Clear m.sp .word a) : m.Holds .byte o (m.memory.load .word a % 256) := by
  have first : Clear m.sp .byte a := fun b cell => clear b (by simp_all [Width.cells])
  rw [← Memory.load_byte]
  exact holds_of_located (Machine.Sees.refl m) wide located first

theorem lowByte_holds (fits : o.fits .word = true) (held : m.Holds .word o value) :
    m.Holds .byte o.lowByte (value % 256) := by
  obtain ⟨read, clear⟩ := held
  cases o with
  | none => cases fits
  | immediate n =>
    cases read
    refine ⟨?_, fun _ found => nomatch found⟩
    simp only [Operand.lowByte, Machine.get, Width.modulus]
    congr 1
    omega
  | frame v offset =>
    cases of_decide_eq_true fits
    cases read
    exact narrow_holds rfl rfl (clear _ rfl)
  | data v base displacement =>
    cases of_decide_eq_true fits
    cases base <;> cases read <;> exact narrow_holds rfl rfl (clear _ rfl)
  | register r =>
    have low (letter : Letter) (full : r = .general letter .full) :
        m.Holds .byte (Operand.register r).lowByte (value % 256) := by
      subst full
      cases read
      have bound := (m.general letter).low.isLt
      refine .of_register rfl ?_
      simp only [Register.withPart, Machine.read]
      omega
    simp only [Operand.fits, Register.carriers, List.mem_cons, List.not_mem_nil, or_false, decide_eq_true_eq] at fits
    rcases fits with full | full | full
    · exact low .a full
    · exact low .b full
    · exact low .d full

theorem extend_runs (kept : m.Kept n) (read : n.read (.general letter .low) = value) :
    Runs n [.mov (.register (.general letter .high)) (.immediate 0)] fun k =>
      m.Kept k ∧ k.Holds .word (.register (.general letter .full)) value := by
  refine Runs.mov (.general letter .high) rfl ⟨kept.write _ rfl, .of_register rfl ?_⟩
  rw [← read]
  simp [Machine.read, Machine.write, Machine.setGeneral]

theorem widening_runs (fits : operand.result.fits .byte = true) (varies : operand.result.kind ≠ .immediate) :
    ∃ tail, (conversion operand 1 2).code = operand.code ++ tail ∧
      ∀ (n : Machine) (value : Int), n.Holds .byte operand.result value →
        Runs n tail fun k => n.Kept k ∧ k.Holds .word (conversion operand 1 2).result value := by
  -- Every operand but the low byte of a register goes through `al`.
  have through (n : Machine) (value : Int) (held : n.Holds .byte operand.result value) :
      Runs n [.mov (register .al) operand.result, .mov (register .ah) (.immediate 0)] fun k =>
        n.Kept k ∧ k.Holds .word (register .ax) value := by
    obtain ⟨lower, upper⟩ := Machine.get_bounds held.value
    refine Runs.cons (Runs.mov .al held.value rfl) ?_
    rintro k rfl
    exact extend_runs ((Machine.Kept.refl n).write value rfl) (n.read_write_of_lt .al lower upper)
  have extended (letter : Letter) (low : operand.result = .register (.general letter .low)) (n : Machine)
      (value : Int) (held : n.Holds .byte operand.result value) :
      Runs n [.mov (.register (.general letter .high)) (.immediate 0)] fun k =>
        n.Kept k ∧ k.Holds .word (.register (.general letter .full)) value := by
    rw [low] at held
    exact extend_runs (.refl n) (Machine.read_of_get rfl held.value)
  cases shape : operand.result with
  | none =>
    rw [shape] at fits
    cases fits
  | immediate => exact absurd (by rw [shape]; rfl) varies
  | frame v offset | data v base displacement =>
    simp only [conversion, shape] at through ⊢
    exact ⟨_, rfl, through⟩
  | register r =>
    rw [shape] at fits extended through
    simp only [Operand.fits, Register.carriers, List.mem_cons, List.not_mem_nil, or_false, decide_eq_true_eq] at fits
    simp only [conversion, shape]
    rcases fits with rfl | rfl | rfl | rfl
    · exact ⟨_, rfl, extended .a rfl⟩
    · exact ⟨_, rfl, extended .b rfl⟩
    · exact ⟨_, rfl, extended .d rfl⟩
    · exact ⟨_, rfl, through⟩

theorem holds_emod (held : m.Holds w o value) : m.Holds w o (value % w.modulus) := by
  obtain ⟨lower, upper⟩ := Machine.get_bounds held.value
  rw [Int.emod_eq_of_lt lower upper]
  exact held

theorem conversion_runs (source target : Ty) (fits : operand.result.fits (.ofSize source.size) = true)
    (varies : operand.result.kind ≠ .immediate) :
    ∃ tail, (conversion operand source.size target.size).code = operand.code ++ tail ∧
      ∀ (n : Machine) (value : Int), n.Holds (.ofSize source.size) operand.result value →
        Runs n tail fun k => n.Kept k ∧
          k.Holds (.ofSize target.size) (conversion operand source.size target.size).result (target.wrap value) := by
  simp only [Ty.wrap_eq]
  by_cases same : source.size = target.size
  · rw [same, conversion, if_pos rfl]
    exact ⟨[], (List.append_nil _).symm, fun n value held => Runs.nil ⟨.refl n, holds_emod held⟩⟩
  rcases size_cases source with from1 | from2 <;> rcases size_cases target with to1 | to2
  · exact absurd (from1.trans to1.symm) same
  · rw [from1] at fits ⊢
    rw [to2]
    obtain ⟨tail, code, runs⟩ := widening_runs fits varies
    exact ⟨tail, code, fun n value held => (runs n value held).imp fun k done => ⟨done.1, holds_emod done.2⟩⟩
  · rw [from2] at fits ⊢
    rw [to1]
    exact ⟨[], (List.append_nil _).symm, fun n value held => Runs.nil ⟨.refl n, lowByte_holds fits held⟩⟩
  · exact absurd (from2.trans to2.symm) same

theorem conversion_evaluates (source target : Ty) (evaluates : operand.Evaluates m (.ofSize source.size) value)
    (varies : operand.result.kind ≠ .immediate) :
    (conversion operand source.size target.size).Evaluates m (.ofSize target.size) (target.wrap value) := by
  refine ⟨(conversion_supplies source target evaluates.supplies varies).1, fun n sees room => ?_⟩
  obtain ⟨tail, code, runs⟩ := conversion_runs source target evaluates.supplies.fits varies
  rw [code] at room ⊢
  have depth := stackDepth_left room
  refine (evaluates.computes n sees depth).append fun k computed => ?_
  exact (runs k value computed.2).imp fun j done => ⟨computed.1.trans done.1, done.2⟩

end Lower

open Lower

theorem Typed.operation_evaluates {left right : Expr} (rightTyped : Typed known right) (isPure : right.isPure = true)
    (kind : op.isArithmetic = true) (sized : right.ty.size = left.ty.size)
    (leftEvaluates : (expression left).Evaluates m left.width a)
    (rightEvaluates : (expression right).Evaluates m right.width b) (nonzero : op.isDivision = true → b ≠ 0) :
    (expression (Build.operation pos op left right left.ty)).Evaluates m left.width
      (left.ty.wrap (op.meaning a b)) := by
  rw [Expr.width, sized] at rightEvaluates
  rw [Ty.wrap_eq]
  have sides : Sides _ _ right.usesRegisters _ _ _ _ :=
    ⟨leftEvaluates, rightEvaluates, fun free => (rightTyped.steady isPure free).1⟩
  exact binary_evaluates sides left.usesRegisters kind nonzero

theorem Typed.evaluates (typed : Typed known e) (isPure : e.isPure = true) {m : Machine} (safe : e.Safe m.sp m.view)
    (isValue : e.ty.IsValue) : (expression e).Evaluates m e.width (e.eval m.view) := by
  induction typed with
  | literal lower upper kind =>
    rename_i pos ty value
    refine ⟨⟨rfl, .nil, rfl⟩, fun n sees room => Runs.nil ⟨.refl n, ?_, fun _ found => nomatch found⟩⟩
    change some (ty.wrap value % (Width.ofSize ty.size).modulus) = some value
    rw [Ty.wrap_of_bounds lower upper, ← Ty.wrap_eq, Ty.wrap_of_bounds lower upper]
  | var found =>
    rename_i pos name ty offset
    refine ⟨⟨rfl, .nil, decide_eq_true rfl⟩, fun n sees room => Runs.nil ⟨.refl n, ?_⟩⟩
    refine holds_of_located sees rfl ?_ safe
    exact congrArg (fun base => some (base + .ofInt 16 offset)) sees.bp
  | deref inner pointer pointee moves near ih =>
    rename_i pos address displacement
    have address := ih isPure safe.1 (inner.value_of_isPointer pointer)
    rw [Expr.width, Ty.size_of_isPointer pointer] at address
    exact dereference_evaluates _ displacement address safe.2
  | step | call => cases isPure
  | assign => cases isPure
  | addressOfVar found =>
    rename_i pos varPos name ty offset
    have evaluates := frameAddress_evaluates m offset
    rw [show Width.word = .ofSize ty.ref.size by rw [Ty.size_ref]; rfl] at evaluates
    exact evaluates
  | addressOfDeref inner pointer pointee moved varies near ih =>
    rename_i pos derefPos address displacement
    have evaluates := ih isPure safe (inner.value_of_isPointer pointer)
    rw [Expr.width, Ty.size_of_isPointer pointer] at evaluates
    have moved := dataAddress_evaluates displacement evaluates
    rw [← expression_addressOf_deref pos address.ty.deref.ref
      { pos := derefPos, ty := address.ty.deref, writable := true, usesRegisters := true } displacement varies,
      show Width.word = .ofSize address.ty.deref.ref.size by rw [Ty.size_ref]; rfl] at moved
    exact moved
  | cast inner named varies changes legal ih =>
    rename_i pos ty operand
    have evaluates := ih isPure safe (Ty.isValue_of_canCast inner.named named changes legal).1
    have lowers := inner.lowers_of_quiet (Expr.calls_of_isPure isPure) fun _ => 0
    exact conversion_evaluates operand.ty ty evaluates (lowers.varies varies)
  | arithmetic leftTyped rightTyped kind number same varies leftIh rightIh =>
    obtain ⟨leftPure, rightPure⟩ := Expr.isPure_operation isPure
    exact rightTyped.operation_evaluates rightPure kind (congrArg Ty.size same) (leftIh leftPure safe.1 isValue)
      (rightIh rightPure safe.2.1 (same ▸ isValue)) safe.2.2
  | pointer leftTyped rightTyped kind pointer offset varies leftIh rightIh =>
    obtain ⟨leftPure, rightPure⟩ := Expr.isPure_operation isPure
    exact rightTyped.operation_evaluates rightPure (Operator.isArithmetic_of_isAdditive kind)
      (by rw [offset, Ty.size_int pointer]) (leftIh leftPure safe.1 isValue)
      (rightIh rightPure safe.2.1 (by rw [offset]; decide)) safe.2.2
  | shift leftTyped rightTyped kind number count varies fixed leftIh rightIh =>
    rename_i pos op left right
    obtain ⟨leftPure, rightPure⟩ := Expr.isPure_operation isPure
    have leftEvaluates := leftIh leftPure safe.1 isValue
    obtain ⟨info, rfl, lower, upper⟩ := rightTyped.literal_of_isConstant fixed
    have evaluates := shift_evaluates kind leftEvaluates (expression_of_constant fixed)
    rw [Expr.width, ← Ty.wrap_eq, show (Expr.literal info).ty.wrap (Expr.literal info).value = info.value from
      Ty.wrap_of_bounds lower upper, ← binary_of_isShift kind _ _ _ left.usesRegisters info.usesRegisters]
      at evaluates
    exact evaluates
  | comparison => exact absurd rfl isValue.1.ne_flags

theorem Typed.value_of_isPure (typed : Typed known e) (isPure : e.isPure = true) (noFlags : e.ty ≠ .flags) :
    e.ty.IsValue := by
  cases typed with
  | literal _ _ kind => exact kind.resolve_right fun isFlags => noFlags isFlags.1
  | var found => exact known.names_value found
  | deref inner pointer pointee => exact ⟨(inner.value_of_isPointer pointer).1, pointee⟩
  | step | call | assign => cases isPure
  | addressOfVar found =>
    exact Ty.isValue_of_isPointer (known.names_value found).1 (by simp [Expr.ty, Expr.info, Ty.isPointer, Ty.ref])
  | addressOfDeref inner pointer =>
    exact Ty.isValue_of_isPointer (inner.value_of_isPointer pointer).1
      (by simp [Expr.ty, Expr.info, Ty.isPointer, Ty.ref])
  | cast inner named varies changes legal => exact (Ty.isValue_of_canCast inner.named named changes legal).2
  | arithmetic _ _ _ number => exact Ty.isValue_of_isArithmetic number
  | pointer leftTyped _ _ pointer => exact leftTyped.value_of_isPointer pointer
  | shift _ _ _ number => exact Ty.isValue_of_isArithmetic number
  | comparison => exact absurd rfl noFlags

theorem Typed.conditional (typed : Typed known e) (isPure : e.isPure = true) {m : Machine} (safe : e.Safe m.sp m.view)
    (isFlags : e.ty = .flags) (room : stackDepth (expression e).code ≤ m.sp.toNat) :
    Runs m (expression e).code fun after => m.Kept after ∧ ∀ target,
      (e.isConstant = true →
        conditionalJump (some e) target = (if e.eval m.view = 1 then [.jump target] else [], none)) ∧
      (e.isConstant = false → ∃ op,
        conditionalJump (some e) target = ((expression e).code ++ [.jumpIf op target], none) ∧
        (after.flags.satisfy op = true ↔ e.eval m.view = 1)) := by
  rcases typed.constant_or_comparison isFlags with
    constant | ⟨pos, op, left, right, rfl, leftTyped, rightTyped, kind, _, number, same⟩
  · cases typed with
    | @literal pos ty value lower upper kind =>
      have bit : value ≤ 1 := (kind.resolve_left fun isValue => isValue.1.ne_flags isFlags).2
      refine Runs.nil ⟨.refl m, fun target => ⟨fun _ => ?_, (nomatch ·)⟩⟩
      change ((if value ≠ 0 then [Instr.jump target] else []), none) =
        ((if value = 1 then [Instr.jump target] else []), (none : Option LowerError))
      by_cases zero : value = 0
      · simp [zero]
      · rw [if_pos zero, if_pos (by omega)]
    | _ => cases constant
  · obtain ⟨leftPure, rightPure⟩ := Expr.isPure_operation isPure
    obtain ⟨leftSafe, rightSafe, -⟩ := safe
    have isValue := Ty.isValue_of_isArithmetic number
    have leftEvaluates := leftTyped.evaluates leftPure leftSafe isValue
    have rightEvaluates := rightTyped.evaluates rightPure rightSafe (same ▸ isValue)
    rw [Expr.width, same] at rightEvaluates
    rw [expression_operation, binary_of_isComparison kind] at room ⊢
    have sides : Sides _ _ right.usesRegisters _ _ _ _ :=
      ⟨leftEvaluates, rightEvaluates, fun free => (rightTyped.steady rightPure free).1⟩
    refine (comparison_runs sides kind (.refl m) room).imp fun after done => ?_
    refine ⟨done.1, fun target => ⟨(nomatch ·), fun _ => ⟨op, ?_, ?_⟩⟩⟩
    · have fine := (comparison_level right.usesRegisters leftEvaluates.supplies rightEvaluates.supplies op).1
      rw [← fine]
      exact if_pos kind
    · rw [done.2]
      change op.meaning _ _ = 1 ↔ Ty.flags.wrap (op.meaning _ _) = 1
      rcases Operator.meaning_of_isComparison kind (left.eval m.view) (right.eval m.view) with truth | truth
      · rw [truth]
        decide
      · rw [truth]
        decide

/-- Expression lowering is correct: the code runs through, keeps the frame and everything from the
stack pointer upwards, and leaves the tree's value in the result operand. A comparison leaves the
flags so that its jump is taken exactly when it holds. -/
theorem expression_code_correct {known : Vocabulary} {e : Expr} (built : Built known e) (isPure : e.isPure = true)
    (m : Machine) (safe : e.Safe m.sp m.view) (room : stackDepth (Lower.expression e).code ≤ m.sp.toNat) :
    (Lower.expression e).error = none ∧ ∃ after, m.run (Lower.expression e).code = some after ∧
      after.bp = m.bp ∧ after.sp = m.sp ∧ (∀ a, m.sp ≤ a → after.memory a = m.memory a) ∧
      (e.ty ≠ .flags →
        after.get (.ofSize e.ty.size) (Lower.expression e).result = some (e.ty.wrap (e.eval m.view))) ∧
      (e.ty = .flags → ∀ target,
        (e.isConstant = true →
          Lower.conditionalJump (some e) target = (if e.eval m.view = 1 then [.jump target] else [], none)) ∧
        (e.isConstant = false → ∃ op,
          Lower.conditionalJump (some e) target = ((Lower.expression e).code ++ [.jumpIf op target], none) ∧
          (after.flags.satisfy op = true ↔ e.eval m.view = 1))) := by
  have typed := built.typed
  refine ⟨(typed.lowers_of_quiet (Expr.calls_of_isPure isPure) fun _ => 0).fine, ?_⟩
  by_cases isFlags : e.ty = .flags
  · obtain ⟨after, ran, kept, jumps⟩ := typed.conditional isPure safe isFlags room
    exact ⟨after, ran, kept.bp, kept.sp, kept.memory, fun noFlags => absurd isFlags noFlags, fun _ => jumps⟩
  · have evaluates := typed.evaluates isPure safe (typed.value_of_isPure isPure isFlags)
    obtain ⟨after, ran, kept, held⟩ := evaluates.computes m (.refl m) room
    have held := Lower.holds_emod held
    rw [Expr.width, ← Ty.wrap_eq] at held
    exact ⟨after, ran, kept.bp, kept.sp, kept.memory, fun _ => held.value, fun flags => absurd flags isFlags⟩

def sampleProduct : Expr :=
  Build.operation .start .multiply
    (Build.operation .start .add (Build.var .start "x" .int (-2)) (Build.literal .start 300 .int) .int)
    (Build.operation .start .subtract (Build.var .start "y" .int (-4)) (Build.literal .start 7 .int) .int) .int

theorem sampleProduct_built : Built .variablesOnly sampleProduct := by
  have x : Built .variablesOnly (Build.var .start "x" .int (-2)) := .var _ (show Ty.int.IsValue by decide)
  have y : Built .variablesOnly (Build.var .start "y" .int (-4)) := .var _ (show Ty.int.IsValue by decide)
  have sum := Built.binary x (.literal .start 300 (show Ty.int.IsValue by decide)) (by decide)
    (show Build.binary .multiply .start .add _ _ = _ from rfl)
  have difference := Built.binary y (.literal .start 7 (show Ty.byte.IsValue by decide)) (by decide)
    (show Build.binary .multiply .start .subtract _ _ = _ from rfl)
  exact .binary sum difference (by decide) (show Build.binary .multiply .start .multiply _ _ = _ from rfl)

/-- Both variables are zero, and the left factor has to be saved. -/
theorem expression_code_correct_product :
    ∃ after, (Machine.blank 256 272).run (Lower.expression sampleProduct).code = some after ∧ after.sp = 256 ∧
      after.get .word (Lower.expression sampleProduct).result = some 63436 := by
  obtain ⟨-, after, ran, -, level, -, value, -⟩ := expression_code_correct sampleProduct_built rfl
    (Machine.blank 256 272) (by decide +kernel) (by decide +kernel)
  have product : sampleProduct.ty.wrap (sampleProduct.eval (Machine.blank 256 272).view) = 63436 := by
    decide +kernel
  exact ⟨after, ran, level, product ▸ value (by decide)⟩

end Cb
