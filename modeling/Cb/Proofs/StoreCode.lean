import Cb.Proofs.ExpressionCode

/-! Running the code of assignments and increments: it changes the bytes of its target and no others
from the stack pointer upwards, and its result is the target. -/

namespace Cb

def Ty.stride (t : Ty) : Int := if t.isPointer then t.deref.size else 1

namespace Expr

def isPlace : Expr → Bool
  | .var _ _ _ => true
  | .deref _ address _ => address.isPure
  | _ => false

/-- Side effects come one after the other: assignments to places, whose right side may be such a tree
again, and steps. -/
def isOrderly : Expr → Bool
  | .binary _ op left right =>
    if op = .assign then left.isPlace && right.isOrderly else left.isPure && right.isPure
  | .step _ target _ => target.isOrderly
  | .cast _ operand => operand.isOrderly
  | e => e.isPure

def place (view : View) : Expr → Address
  | .var _ _ offset => view.base + .ofInt 16 offset
  | .deref _ address displacement => .ofInt 16 (address.eval view + displacement)
  | .step _ target _ => target.place view
  | _ => 0

def outcome (view : View) : Expr → View × Int
  | .binary info op left right =>
    if op = .assign then
      let after := (right.outcome view).1
      let value := (right.outcome view).2
      ({ after with memory := after.memory.store (.ofSize info.ty.size) (left.place after) value }, value)
    else (view, info.ty.wrap (op.meaning (left.eval view) (right.eval view)))
  | .step info target down =>
    let after := (target.outcome view).1
    let old := (target.outcome view).2
    let value := info.ty.wrap (if down then old - info.ty.stride else old + info.ty.stride)
    ({ after with memory := after.memory.store (.ofSize info.ty.size) (target.place view) value }, value)
  | .cast info operand => ((operand.outcome view).1, info.ty.wrap (operand.outcome view).2)
  | e => (view, e.eval view)

def SafeOutcome (low : Address) (view : View) : Expr → Prop
  | .binary info op left right =>
    if op = .assign then right.SafeOutcome low view ∧ left.Safe low (right.outcome view).1
    else (Expr.binary info op left right).Safe low view
  | .step _ target _ => target.SafeOutcome low view
  | .cast _ operand => operand.SafeOutcome low view
  | e => e.Safe low view

theorem outcome_base (view : View) (e : Expr) : (e.outcome view).1.base = view.base := by
  fun_induction outcome view e with
  | case1 _ _ _ _ _ ih => exact ih
  | case2 => rfl
  | case3 _ _ _ _ _ _ ih => exact ih
  | case4 _ _ ih => exact ih
  | case5 => rfl

end Expr

namespace Memory

theorem store_congr {memory other : Memory} (same : memory b = other b) (w : Width) (a : Address) (value : Int) :
    memory.store w a value b = other.store w a value b := by
  simp only [store, same]

theorem store_emod (memory : Memory) (w : Width) (a : Address) (value : Int) :
    memory.store w a (value % w.modulus) = memory.store w a value := by
  have byteOf {x y : Int} (same : x % 256 = y % 256) : BitVec.ofInt 8 x = BitVec.ofInt 8 y := by
    apply BitVec.eq_of_toNat_eq
    simp only [BitVec.toNat_ofInt]
    omega
  funext b
  cases w with
  | byte =>
    simp only [store, Width.modulus, reduceCtorEq, false_and, ↓reduceIte]
    rw [byteOf (show value % 256 % 256 = value % 256 by omega)]
  | word =>
    simp only [store, Width.modulus]
    rw [byteOf (show value % 65536 % 256 = value % 256 by omega),
      byteOf (show value % 65536 / 256 % 256 = value / 256 % 256 by omega)]

end Memory

namespace Machine

structure Updated (m n : Machine) (memory : Memory) : Prop where
  bp : n.bp = m.bp
  sp : n.sp = m.sp
  memory : ∀ a, m.sp ≤ a → n.memory a = memory a

theorem get_of_located {m : Machine} (wide : o.width? = some w) (located : m.address? o = some a) :
    m.get w o = some (m.memory.load w a) := by
  cases o with
  | none | immediate | register => cases located
  | frame v offset | data v base displacement =>
    cases wide
    simp only [get, located, ↓reduceIte, Option.map_some]

theorem set_of_located {m : Machine} (wide : o.width? = some w) (located : m.address? o = some a) (value : Int) :
    m.set w o value = some { m with memory := m.memory.store w a value } := by
  cases o with
  | none | immediate | register => cases located
  | frame v offset | data v base displacement =>
    cases wide
    simp only [set, located, ↓reduceIte, Option.map_some]

end Machine

namespace Runs

variable {m : Machine} {goal : Machine → Prop}

theorem store {target source : Operand} (wide : target.width? = some w) (located : m.address? target = some a)
    (held : m.get w source = some value) (direct : source.isMemory = false)
    (reached : goal { m with memory := m.memory.store w a value }) : Runs m [.mov target source] goal := by
  have stepped : m.step (.mov target source) = some { m with memory := m.memory.store w a value } := by
    simp [Machine.step, Machine.readPair, direct, wide, held, Machine.set_of_located wide located]
  exact single stepped reached

theorem unload {target : Operand} (memory : target.isMemory = true) (wide : target.width? = some w)
    (located : m.address? target = some a) (top : m.memory.load w m.sp = value)
    (reached : ∀ n, n.bp = m.bp → n.sp = m.sp + .ofNat 16 w.bytes → n.memory = m.memory.store w a value →
      n.address? target = some a → goal n) :
    Runs m (if w = .byte && target.kind ≠ .register then
        [.popByte (Lower.register .al), .mov target (Lower.register .al)]
      else [Lower.load w target]) goal := by
  have noRegister : target.kind ≠ .register := by
    intro isRegister
    simp [Operand.isMemory, OperandKind.isMemory, isRegister] at memory
  cases w with
  | byte =>
    have lower := Memory.load_nonneg m.memory .byte m.sp
    have upper := Memory.load_lt m.memory .byte m.sp
    have loaded : Runs m [Lower.load .byte (Lower.register .al)] fun n =>
        (m.write (m.memory.load .byte m.sp) .al).Alike n ∧ n.sp = m.sp + 1 :=
      load rfl rfl fun n alike level => ⟨alike, level⟩
    simp only [decide_true, noRegister, ne_eq, not_false_eq_true, Bool.and_self, ↓reduceIte]
    refine cons loaded fun n taken => ?_
    obtain ⟨alike, level⟩ := taken
    have avoids : target.avoids .al = true :=
      show target.avoids (Lower.accumulator .byte) = true from Lower.avoids_accumulator noRegister
    have still : n.address? target = some a := by
      rw [alike.address? target, m.address?_write _ rfl avoids, located]
    have held : n.get .byte (Lower.register .al) = some value := by
      rw [alike.get .byte (by decide), ← top]
      exact (Machine.Holds.of_register rfl (m.read_write_of_lt .al lower upper)).value
    refine store wide still held rfl (reached _ ?_ level ?_ still)
    · exact alike.bp.trans (m.write_bp _ rfl)
    · rw [alike.memory, m.write_memory]
  | word =>
    have stepped : m.step (.pop target) = some { m.dropped 2 with memory := m.memory.store .word a value } := by
      have still : (m.dropped 2).address? target = some a :=
        (Machine.address?_congr rfl rfl target).trans located
      rw [← top]
      exact Machine.set_of_located wide still _
    exact single stepped (reached _ rfl rfl rfl ((Machine.address?_congr rfl rfl target).trans located))

end Runs

namespace Lower

variable {w : Width} {m : Machine} {memory : Memory} {a : Address} {value : Int}

theorem width?_of_fits {o : Operand} (fits : o.fits w = true) (memory : o.isMemory = true) : o.width? = some w := by
  cases o with
  | none | immediate | register => cases memory
  | frame v offset | data v base displacement => exact congrArg some (of_decide_eq_true fits)

theorem holds_of_store {o : Operand} (wide : o.width? = some w) (located : m.address? o = some a)
    (clear : Clear m.sp w a) (stored : m.memory = memory.store w a value) : m.Holds w o (value % w.modulus) := by
  refine ⟨?_, fun b found => ?_⟩
  · rw [Machine.get_of_located wide located, stored, Memory.load_store]
  · rw [located] at found
    cases found
    exact clear

theorem updated_of_store {k n j : Machine} (updated : m.Updated k memory) (sees : k.Sees n) (bp : j.bp = n.bp)
    (level : j.sp = m.sp) (stored : j.memory = n.memory.store w a value) : m.Updated j (memory.store w a value) := by
  refine ⟨by rw [bp, sees.bp, updated.bp], level, fun b above => ?_⟩
  rw [stored]
  refine Memory.store_congr ?_ w a value
  rw [sees.memory b (by rw [updated.sp]; exact above), updated.memory b above]

theorem assignment_runs {left right : Lowered} (uses : Bool) (leftSupplies : left.Supplies (fun _ => 0) w)
    (rightSupplies : right.Supplies (fun _ => 0) w) (target : left.result.isMemory = true) (clear : Clear m.sp w a)
    (rightRuns : stackDepth right.code ≤ m.sp.toNat →
      Runs m right.code fun k => m.Updated k memory ∧ k.Holds w right.result value)
    (leftRuns : ∀ k, m.Updated k memory → ∀ n, k.Sees n → stackDepth left.code ≤ n.sp.toNat →
      Runs n left.code fun j => n.Kept j ∧ j.address? left.result = some a) (steady : uses = false → left.code = [])
    (room : stackDepth (assignment left right w uses).code ≤ m.sp.toNat) :
    Runs m (assignment left right w uses).code fun j =>
      m.Updated j (memory.store w a value) ∧ j.address? left.result = some a ∧ j.Holds w left.result value := by
  have wide := width?_of_fits leftSupplies.fits target
  have rightNet := rightSupplies.level.2
  have leftDepth := stackDepth_nonneg left.code
  have done {k j n : Machine} (updated : m.Updated k memory) (sees : k.Sees j) (lower : 0 ≤ value)
      (upper : value < w.modulus) (bp : n.bp = j.bp) (level : n.sp = m.sp)
      (stored : n.memory = j.memory.store w a value) (still : n.address? left.result = some a) :
      m.Updated n (memory.store w a value) ∧ n.address? left.result = some a ∧ n.Holds w left.result value := by
    have held := holds_of_store wide still (level ▸ clear) stored
    rw [Int.emod_eq_of_lt lower upper] at held
    exact ⟨updated_of_store updated sees bp level stored, still, held⟩
  by_cases saved : (right.result.isVolatile && uses) = true
  · obtain ⟨volatile, used⟩ := Bool.and_eq_true_iff.mp saved
    have saveNet : netEffect (fun _ => 0) (save w right.result) = -w.bytes := (save_shifts w right.result).2
    simp only [assignment, saved, ↓reduceIte, stackDepth_append, netEffect_append, rightNet, saveNet] at room ⊢
    have enough : w.bytes ≤ m.sp.toNat := by omega
    have spilled : Runs m (right.code ++ save w right.result) fun n =>
        ∃ k, m.Updated k memory ∧ Spilled k n w value := by
      refine (rightRuns (by omega)).append fun k computed => ?_
      obtain ⟨updated, held⟩ := computed
      obtain ⟨lower, upper⟩ := Machine.get_bounds held.value
      refine Runs.save held.value volatile fun n bp sp memory => ⟨k, updated, ?_⟩
      exact spilled_of_push (by rw [updated.sp]; exact enough) bp sp memory lower upper
    have located : Runs m (right.code ++ save w right.result ++ left.code) fun j =>
        ∃ k, m.Updated k memory ∧ Spilled k j w value ∧ j.address? left.result = some a := by
      refine spilled.append fun n facts => ?_
      obtain ⟨k, updated, spilled⟩ := facts
      have enough : w.bytes ≤ k.sp.toNat := by rw [updated.sp]; exact enough
      have lowered := spilled.lowered enough
      rw [updated.sp] at lowered
      refine (leftRuns k updated n spilled.sees (by omega)).imp fun j done => ?_
      exact ⟨k, updated, spilled.kept enough done.1, done.2⟩
    refine located.append fun j facts => ?_
    obtain ⟨k, updated, spilled, located⟩ := facts
    refine Runs.unload target wide located spilled.value fun n bp sp memory still => ?_
    exact done updated spilled.sees (spilled.value ▸ Memory.load_nonneg _ _ _) (spilled.value ▸ Memory.load_lt _ _ _) bp
      (by rw [sp, spilled.sp, updated.sp]) memory still
  · simp only [assignment, saved, stackDepth_append, netEffect_append, rightNet] at room ⊢
    simp only [Bool.false_eq_true, ↓reduceIte, List.append_nil, netEffect_nil] at room ⊢
    have located : Runs m (right.code ++ left.code) fun j =>
        ∃ k, m.Updated k memory ∧ k.Kept j ∧ j.Holds w right.result value ∧ j.address? left.result = some a := by
      refine (rightRuns (by omega)).append fun k computed => ?_
      obtain ⟨updated, held⟩ := computed
      have depth : stackDepth left.code ≤ k.sp.toNat := by
        rw [updated.sp]
        omega
      obtain ⟨j, ran, kept, located⟩ := leftRuns k updated k (.refl k) depth
      refine ⟨j, ran, k, updated, kept, ?_, located⟩
      by_cases volatile : right.result.isVolatile = true
      · rw [steady (by simpa [volatile] using saved)] at ran
        cases ran
        exact held
      · exact held.of_kept kept (by simpa using volatile)
    refine located.append fun j facts => ?_
    obtain ⟨k, updated, kept, held, located⟩ := facts
    obtain ⟨lower, bounded⟩ := Machine.get_bounds held.value
    have level : j.sp = m.sp := kept.sp.trans updated.sp
    have noRegister : left.result.kind ≠ .register := by
      intro isRegister
      simp [Operand.isMemory, OperandKind.isMemory, isRegister] at target
    split
    · obtain ⟨general, isWide⟩ := accumulator_isGeneral w
      refine Runs.cons (Runs.mov (accumulator w) (isWide ▸ held.value) rfl) ?_
      rintro n rfl
      have still : (j.write value (accumulator w)).address? left.result = some a :=
        (j.address?_write value general (avoids_accumulator noRegister)).trans located
      have upper : value < (accumulator w).width.modulus := by rw [isWide]; exact bounded
      have moved := (Machine.Holds.of_register isWide (j.read_write_of_lt (accumulator w) lower upper)).value
      refine Runs.store wide still moved rfl (done updated kept.sees lower bounded ?_ ?_ ?_ ?_)
      · exact j.write_bp value general
      · exact (j.write_sp value general).trans level
      · rw [j.write_memory value]
      · exact (Machine.address?_congr rfl rfl left.result).trans still
    · rename_i direct
      have direct : right.result.isMemory = false := by simpa [target] using direct
      exact Runs.store wide located held.value direct
        (done updated kept.sees lower bounded rfl level rfl ((Machine.address?_congr rfl rfl left.result).trans located))

theorem increment_runs {target : Lowered} (ty : Ty) (down : Bool) (wide : target.result.width? = some w) :
    ∃ instr, (increment target ty down).code = target.code ++ [instr] ∧ ∀ {k : Machine} {a : Address} {old : Int},
      k.address? target.result = some a → k.get w target.result = some old → Runs k [instr] fun j =>
        j.bp = k.bp ∧ j.sp = k.sp ∧ j.address? target.result = some a ∧
          j.memory = k.memory.store w a (if down then old - ty.stride else old + ty.stride) := by
  refine ⟨_, rfl, ?_⟩
  intro k a old located held
  have still (flags : Flags) : { k with flags }.address? target.result = some a :=
    (Machine.address?_congr rfl rfl target.result).trans located
  have done {i : Instr} {flags : Flags} {value : Int}
      (stepped : k.step i = { k with flags }.set w target.result value) : Runs k [i] fun j =>
        j.bp = k.bp ∧ j.sp = k.sp ∧ j.address? target.result = some a ∧ j.memory = k.memory.store w a value := by
    rw [Machine.set_of_located wide (still flags)] at stepped
    exact Runs.single stepped
      ⟨rfl, rfl, (Machine.address?_congr rfl rfl target.result).trans located, rfl⟩
  have stepped (change : Int) : k.stepped target.result change =
      { k with flags := { Flags.ofResult w (old + change) with carry := k.flags.carry } }.set w target.result
        (old + change) := by
    simp [Machine.stepped, wide, held]
  have shifted (op : Arithmetic) (writes : op ≠ .cmp) (n : Int) (small : n % w.modulus = n) :
      k.step (.arithmetic op target.result (.immediate n)) =
        { k with flags := .ofResult w (op.apply old n) }.set w target.result (op.apply old n) := by
    have pair : k.readPair target.result (.immediate n) = some (w, n) := by
      simp [Machine.readPair, Operand.isMemory, Operand.kind, OperandKind.isMemory, wide, Machine.get, small]
    simp [Machine.step, pair, held, writes]
  split
  · rename_i single
    have stride : ty.stride = 1 := by
      simp only [Ty.stride]
      split
      · rename_i pointer
        have size : ty.deref.size = 1 := by simpa [pointer] using single
        rw [size]
        rfl
      · rfl
    rw [stride]
    cases down
    · exact done (stepped 1)
    · exact done (stepped (-1))
  · rename_i several
    have pointer : ty.isPointer = true ∧ ty.deref.size = 2 := by
      have size := size_cases ty.deref
      simp only [Bool.or_eq_true, Bool.not_eq_true', decide_eq_true_eq, not_or, Bool.not_eq_false] at several
      exact ⟨several.1, size.resolve_left several.2⟩
    have stride : ty.stride = 2 := by
      rw [Ty.stride, if_pos pointer.1, pointer.2]
      rfl
    have small : (2 : Int) % w.modulus = 2 := by cases w <;> rfl
    rw [stride, pointer.2]
    cases down
    · exact done (shifted .add (by decide) 2 small)
    · exact done (shifted .sub (by decide) 2 small)

end Lower

open Lower

namespace Expr

variable {e : Expr}

theorem outcome_of_isPure (view : View) (isPure : e.isPure = true) : e.outcome view = (view, e.eval view) := by
  fun_induction Expr.outcome view e with
  | case1 => cases isPure
  | case2 => rfl
  | case3 => cases isPure
  | case4 _ _ ih => rw [ih isPure]; rfl
  | case5 => rfl

theorem safe_of_isPure (isPure : e.isPure = true) (safe : e.SafeOutcome low view) :
    e.Safe low view := by
  fun_induction Expr.SafeOutcome low view e with
  | case1 => cases isPure
  | case2 => exact safe
  | case3 => cases isPure
  | case4 _ _ ih => exact ih isPure safe
  | case5 => exact safe

theorem isPure_of_isPlace (place : e.isPlace = true) : e.isPure = true := by
  cases e with
  | var => rfl
  | deref => exact place
  | literal | step | addressOf | cast | call | binary | hollow => cases place

end Expr

variable {e left right : Expr} {m : Machine} {known : Vocabulary} {view : View} {pos : Position}

theorem Typed.locates (typed : Typed known e) (place : e.isPlace = true) (safe : e.Safe m.sp m.view) (sees : m.Sees n)
    (room : stackDepth (expression e).code ≤ n.sp.toNat) :
    Runs n (expression e).code fun k =>
      n.Kept k ∧ k.address? (expression e).result = some (e.place m.view) := by
  cases typed with
  | var found =>
    rename_i pos name ty offset
    refine Runs.nil ⟨.refl n, ?_⟩
    change some (n.bp + .ofInt 16 offset) = some (m.bp + .ofInt 16 offset)
    rw [sees.bp]
  | deref inner pointer pointee moves near =>
    rename_i pos address displacement
    have address := inner.evaluates place safe.1 (inner.value_of_isPointer pointer)
    rw [Expr.width, Ty.size_of_isPointer pointer] at address
    exact dereference_runs _ displacement address sees room
  | literal | step | addressOfVar | addressOfDeref | cast | call | assign | arithmetic | pointer | shift
  | comparison => cases place

theorem Expr.clear_of_isPlace (place : e.isPlace = true) (safe : e.Safe low view) :
    Clear low e.width (e.place view) := by
  cases e with
  | var => exact safe
  | deref => exact safe.2
  | literal | step | addressOf | cast | call | binary | hollow => cases place

theorem Machine.Updated.safe (updated : m.Updated k view.memory) (base : view.base = m.bp) (safe : e.Safe m.sp view) :
    e.Safe k.sp k.view ∧ e.eval k.view = e.eval view := by
  have frame : k.view = ⟨view.base, k.memory⟩ := by rw [Machine.view, updated.bp, base]
  rw [frame]
  exact safe.congr (by rw [updated.sp]; exact BitVec.le_refl _) updated.memory

theorem Machine.Updated.place (updated : m.Updated k view.memory) (base : view.base = m.bp) (place : e.isPlace = true)
    (safe : e.Safe m.sp view) : e.place k.view = e.place view := by
  cases e with
  | var info name offset =>
    change k.bp + .ofInt 16 offset = view.base + .ofInt 16 offset
    rw [updated.bp, base]
  | deref info address displacement =>
    simp only [Expr.place, (updated.safe base safe.1).2]
  | literal | step | addressOf | cast | call | binary | hollow => cases place

theorem Typed.assigns (leftTyped : Typed known left) (rightTyped : Typed known right)
    (writable : left.isWritable = true) (same : right.ty = left.ty) (place : left.isPlace = true)
    (quiet : right.calls = []) (safe : left.Safe m.sp (right.outcome m.view).1)
    (rightRuns : stackDepth (expression right).code ≤ m.sp.toNat →
      Runs m (expression right).code fun k => m.Updated k (right.outcome m.view).1.memory ∧
        k.Holds right.width (expression right).result (right.outcome m.view).2)
    (room : stackDepth (expression (Build.operation pos .assign left right left.ty)).code ≤ m.sp.toNat) :
    Runs m (expression (Build.operation pos .assign left right left.ty)).code fun k =>
      let after := (right.outcome m.view).1
      m.Updated k (after.memory.store left.width (left.place after) (right.outcome m.view).2) ∧
        k.address? (expression left).result = some (left.place after) ∧
        k.Holds left.width (expression left).result (right.outcome m.view).2 := by
  have isValue := leftTyped.value_of_writable writable
  have leftPure := Expr.isPure_of_isPlace place
  have leftLowers := leftTyped.lowers_of_quiet (Expr.calls_of_isPure leftPure) fun _ => 0
  have rightSupplies := (rightTyped.lowers_of_quiet quiet fun _ => 0).supplies (same ▸ isValue)
  have wide : right.width = left.width := by rw [Expr.width, Expr.width, same]
  rw [same] at rightSupplies
  rw [wide] at rightRuns
  have clear := Expr.clear_of_isPlace place safe
  refine assignment_runs left.usesRegisters (leftLowers.supplies isValue) rightSupplies
    (leftLowers.memory writable) clear rightRuns ?_ (fun free => (leftTyped.steady leftPure free).1) room
  intro k updated n sees depth
  have base := Expr.outcome_base m.view right
  rw [← updated.place base place safe]
  exact leftTyped.locates place (updated.safe base safe).1 sees depth

theorem Expr.calls_of_isOrderly (orderly : e.isOrderly = true) : e.calls = [] := by
  fun_induction Expr.isOrderly e with
  | case1 _ left right ih =>
    simp only [Bool.and_eq_true] at orderly
    exact List.append_eq_nil_iff.mpr ⟨calls_of_isPure (isPure_of_isPlace orderly.1), ih orderly.2⟩
  | case2 _ _ left right =>
    simp only [Bool.and_eq_true] at orderly
    exact List.append_eq_nil_iff.mpr ⟨calls_of_isPure orderly.1, calls_of_isPure orderly.2⟩
  | case3 _ _ _ ih | case4 _ _ ih => exact ih orderly
  | case5 => exact calls_of_isPure orderly

theorem Typed.isPlace_of_writable (typed : Typed known e) (isPure : e.isPure = true) (writable : e.isWritable = true) :
    e.isPlace = true := by
  cases typed with
  | var => rfl
  | deref => exact isPure
  | step => cases isPure
  | literal | addressOfVar | addressOfDeref | cast | call | assign | arithmetic | pointer | shift
  | comparison => cases writable

def Expr.Succeeds (e : Expr) (m : Machine) : Prop :=
  Runs m (expression e).code fun k => m.Updated k (e.outcome m.view).1.memory ∧
    k.Holds e.width (expression e).result (e.outcome m.view).2 ∧
    (e.isWritable = true → k.address? (expression e).result = some (e.place m.view))

theorem Typed.succeeds_of_isPure (typed : Typed known e) (isPure : e.isPure = true) (safe : e.SafeOutcome m.sp m.view)
    (isValue : e.ty.IsValue) (room : stackDepth (expression e).code ≤ m.sp.toNat) : e.Succeeds m := by
  have safe := Expr.safe_of_isPure isPure safe
  have evaluates := (typed.evaluates isPure safe isValue).computes m (.refl m) room
  have updated (k : Machine) (kept : m.Kept k) : m.Updated k m.memory := ⟨kept.bp, kept.sp, kept.memory⟩
  rw [Expr.Succeeds, Expr.outcome_of_isPure m.view isPure]
  by_cases writable : e.isWritable = true
  · have locates := typed.locates (typed.isPlace_of_writable isPure writable) safe (.refl m) room
    exact (evaluates.and locates).imp fun k done => ⟨updated k done.1.1, done.1.2, fun _ => done.2.2⟩
  · exact evaluates.imp fun k done => ⟨updated k done.1, done.2, fun yes => absurd yes writable⟩

theorem Typed.steps (typed : Typed known target) (writable : target.isWritable = true) (quiet : target.calls = [])
    (down : Bool) (targetRuns : stackDepth (expression target).code ≤ m.sp.toNat → target.Succeeds m)
    (room : stackDepth (increment (expression target) target.ty down).code ≤ m.sp.toNat) :
    Runs m (increment (expression target) target.ty down).code fun k =>
      let old := (target.outcome m.view).2
      let value := target.ty.wrap (if down then old - target.ty.stride else old + target.ty.stride)
      m.Updated k ((target.outcome m.view).1.memory.store target.width (target.place m.view) value) ∧
        k.address? (expression target).result = some (target.place m.view) ∧
        k.Holds target.width (expression target).result value := by
  have lowers := typed.lowers_of_quiet quiet fun _ => 0
  have wide := width?_of_fits (lowers.fits (typed.value_of_writable writable)) (lowers.memory writable)
  obtain ⟨instr, code, steps⟩ := increment_runs target.ty down wide
  rw [code] at room ⊢
  refine (targetRuns (stackDepth_left room)).append fun k done => ?_
  obtain ⟨updated, held, located⟩ := done
  refine (steps (located writable) held.value).imp fun j stepped => ?_
  obtain ⟨bp, level, still, stored⟩ := stepped
  have level : j.sp = m.sp := level.trans updated.sp
  have clear := held.clear _ (located writable)
  rw [updated.sp, ← level] at clear
  simp only [Expr.width, Ty.wrap_eq, Memory.store_emod]
  exact ⟨updated_of_store updated (.refl k) bp level stored, still,
    holds_of_store wide still clear stored⟩

theorem Typed.succeeds (typed : Typed known e) (orderly : e.isOrderly = true) (safe : e.SafeOutcome m.sp m.view)
    (isValue : e.ty.IsValue) (room : stackDepth (expression e).code ≤ m.sp.toNat) : e.Succeeds m := by
  fun_induction Expr.isOrderly e with
  | case1 info left right ih =>
    obtain ⟨place, rightOrderly⟩ := Bool.and_eq_true_iff.mp orderly
    cases typed with
    | arithmetic _ _ kind | pointer _ _ kind | shift _ _ kind | comparison _ _ kind => cases kind
    | assign leftTyped rightTyped writable same =>
      have runs := leftTyped.assigns rightTyped writable same place (Expr.calls_of_isOrderly rightOrderly) safe.2
        (fun depth => (ih rightTyped rightOrderly safe.1 (same ▸ isValue) depth).imp fun k done => ⟨done.1, done.2.1⟩)
        room
      exact runs.imp fun k done => ⟨done.1, done.2.2, by rintro ⟨⟩⟩
  | case2 info op left right other =>
    refine typed.succeeds_of_isPure ?_ safe isValue room
    simpa [Expr.isPure, other] using orderly
  | case3 info target down ih =>
    cases typed with
    | step inner writable scalar =>
      have runs := inner.steps writable (Expr.calls_of_isOrderly orderly) down (ih inner orderly safe scalar) room
      exact runs.imp fun k done => ⟨done.1, done.2.2, fun _ => done.2.1⟩
  | case4 info operand ih =>
    cases typed with
    | @cast pos ty _ inner named varies changes legal =>
      have operandValue := (Ty.isValue_of_canCast inner.named named changes legal).1
      have lowers := inner.lowers_of_quiet (Expr.calls_of_isOrderly orderly) fun _ => 0
      obtain ⟨tail, code, runs⟩ :=
        conversion_runs operand.ty ty (lowers.fits operandValue) (lowers.varies varies)
      change stackDepth (conversion (expression operand) operand.ty.size ty.size).code ≤ _ at room
      rw [code] at room
      have started := ih inner orderly safe operandValue (stackDepth_left room)
      change Runs m (conversion (expression operand) operand.ty.size ty.size).code _
      rw [code]
      refine started.append fun k done => (runs k _ done.2.1).imp fun j converted => ?_
      obtain ⟨kept, held⟩ := converted
      refine ⟨⟨kept.bp.trans done.1.bp, kept.sp.trans done.1.sp, fun a above => ?_⟩, held, by rintro ⟨⟩⟩
      rw [kept.memory a (by rw [done.1.sp]; exact above)]
      exact done.1.memory a above
  | case5 => exact typed.succeeds_of_isPure orderly safe isValue room

theorem Typed.outcome_convert (typed : Typed known e) (ty : Ty) (orderly : e.isOrderly = true)
    (safe : e.SafeOutcome low view) :
    (Build.convert e ty).isOrderly = true ∧ (Build.convert e ty).SafeOutcome low view ∧
      ((Build.convert e ty).outcome view).1 = (e.outcome view).1 ∧
      ty.wrap ((Build.convert e ty).outcome view).2 = ty.wrap (e.outcome view).2 := by
  simp only [Build.convert]
  split
  · exact ⟨orderly, safe, rfl, rfl⟩
  · split
    · rename_i constant
      obtain ⟨info, rfl, -, -⟩ := typed.literal_of_isConstant constant
      refine ⟨rfl, trivial, rfl, ?_⟩
      change ty.wrap (ty.wrap info.value) = ty.wrap info.value
      exact Ty.wrap_of_bounds (ty.wrap_lower _) (ty.wrap_upper _)
    · exact ⟨orderly, safe, rfl, Ty.wrap_of_bounds (ty.wrap_lower _) (ty.wrap_upper _)⟩

/-- The code runs through and keeps the frame. Of the bytes from the stack pointer upwards it changes
those of one value, and its result is that place. -/
def Expr.StoresAt (e : Expr) (m : Machine) (memory : Memory) (ty : Ty) (a : Address) (value : Int) : Prop :=
  (expression e).error = none ∧ ∃ after, m.run (expression e).code = some after ∧
    after.bp = m.bp ∧ after.sp = m.sp ∧
    (∀ b, m.sp ≤ b → b ∉ (Width.ofSize ty.size).cells a → after.memory b = memory b) ∧
    after.memory.load (.ofSize ty.size) a = ty.wrap value ∧
    after.address? (expression e).result = some a ∧
    after.get (.ofSize ty.size) (expression e).result = some (ty.wrap value)

theorem storesAt_of_updated {memory : Memory} (fine : (expression e).error = none)
    (wide : (expression e).result.width? = some (.ofSize ty.size))
    (runs : Runs m (expression e).code fun k => m.Updated k (memory.store (.ofSize ty.size) a value) ∧
      k.address? (expression e).result = some a ∧
      k.Holds (.ofSize ty.size) (expression e).result (ty.wrap value)) : e.StoresAt m memory ty a value := by
  obtain ⟨after, ran, updated, located, held⟩ := runs
  refine ⟨fine, after, ran, updated.bp, updated.sp, ?_, ?_, located, held.value⟩
  · intro b above other
    rw [updated.memory b above, memory.store_of_not_mem value other]
  · have read := (Machine.get_of_located wide located).symm.trans held.value
    exact Option.some.inj read

theorem assignment_storesAt (leftTyped : Typed known left) (rightTyped : Typed known right)
    (built : Build.assign pos left right = .ok e) (place : left.isPlace = true) (orderly : right.isOrderly = true)
    (safeRight : right.SafeOutcome m.sp m.view) (safeLeft : left.Safe m.sp (right.outcome m.view).1)
    (room : stackDepth (expression e).code ≤ m.sp.toNat) :
    e.StoresAt m (right.outcome m.view).1.memory left.ty (left.place (right.outcome m.view).1)
      (right.outcome m.view).2 := by
  obtain ⟨writable, legal, rfl⟩ := Build.assign_shape built
  have isValue := leftTyped.value_of_writable writable
  have same := Build.convert_ty right left.ty
  have converted := Build.convert_typed rightTyped isValue.1 legal
  obtain ⟨convertedOrderly, convertedSafe, view, value⟩ := rightTyped.outcome_convert left.ty orderly safeRight
  have whole : Typed known (Build.operation pos .assign left (Build.convert right left.ty) left.ty) :=
    .assign leftTyped converted writable same
  have quiet : (Build.operation pos .assign left (Build.convert right left.ty) left.ty).calls = [] :=
    List.append_eq_nil_iff.mpr ⟨Expr.calls_of_isPure (Expr.isPure_of_isPlace place),
      Expr.calls_of_isOrderly convertedOrderly⟩
  have leftLowers := leftTyped.lowers_of_quiet (Expr.calls_of_isPure (Expr.isPure_of_isPlace place)) fun _ => 0
  have wide := width?_of_fits (leftLowers.fits isValue) (leftLowers.memory writable)
  refine storesAt_of_updated (whole.lowers_of_quiet quiet fun _ => 0).fine wide ?_
  have runs := leftTyped.assigns converted writable same place (Expr.calls_of_isOrderly convertedOrderly)
    (view ▸ safeLeft) (fun depth => (converted.succeeds convertedOrderly convertedSafe (same.symm ▸ isValue)
      depth).imp fun k done => ⟨done.1, done.2.1⟩) room
  refine runs.imp fun k done => ?_
  obtain ⟨updated, located, held⟩ := done
  rw [view] at updated located
  have held := holds_emod held
  rw [Expr.width, ← Ty.wrap_eq, value] at held
  rw [← Memory.store_emod, Expr.width, ← Ty.wrap_eq, value, Ty.wrap_eq, Memory.store_emod] at updated
  exact ⟨updated, located, held⟩

theorem step_storesAt (typed : Typed known target) (built : Build.step pos target down = .ok e)
    (orderly : target.isOrderly = true) (safe : target.SafeOutcome m.sp m.view)
    (room : stackDepth (expression e).code ≤ m.sp.toNat) :
    e.StoresAt m (target.outcome m.view).1.memory target.ty (target.place m.view)
      (if down then (target.outcome m.view).2 - target.ty.stride
        else (target.outcome m.view).2 + target.ty.stride) := by
  obtain ⟨writable, rfl⟩ := Build.step_shape built
  have isValue := typed.value_of_writable writable
  have lowers := typed.lowers_of_quiet (Expr.calls_of_isOrderly orderly) fun _ => 0
  have wide := width?_of_fits (lowers.fits isValue) (lowers.memory writable)
  refine storesAt_of_updated lowers.fine wide ?_
  have runs := typed.steps writable (Expr.calls_of_isOrderly orderly) down
    (fun depth => typed.succeeds orderly safe isValue depth) room
  refine runs.imp fun k done => ?_
  obtain ⟨updated, located, held⟩ := done
  rw [Expr.width, Ty.wrap_eq, Memory.store_emod] at updated
  exact ⟨updated, located, held⟩

/-- Stores are exact: an assignment to a place and a step change exactly the bytes of their target, the
target of an assignment being found after the right side is computed. -/
theorem store_code_exact {known : Vocabulary} (m : Machine) :
    (∀ {scaling : Scaling} {pos : Position} {left right e : Expr}, Built known left → Built known right →
      Build.binary scaling pos .assign left right = .ok e → left.isPlace = true → right.isOrderly = true →
      right.SafeOutcome m.sp m.view → left.Safe m.sp (right.outcome m.view).1 →
      stackDepth (Lower.expression e).code ≤ m.sp.toNat →
      e.StoresAt m (right.outcome m.view).1.memory left.ty (left.place (right.outcome m.view).1)
        (right.outcome m.view).2) ∧
    (∀ {pos : Position} {target e : Expr} {down : Bool}, Built known target → Build.step pos target down = .ok e →
      target.isOrderly = true → target.SafeOutcome m.sp m.view → stackDepth (Lower.expression e).code ≤ m.sp.toNat →
      e.StoresAt m (target.outcome m.view).1.memory target.ty (target.place m.view)
        (if down then (target.outcome m.view).2 - target.ty.stride
          else (target.outcome m.view).2 + target.ty.stride)) :=
  ⟨fun leftBuilt rightBuilt built => assignment_storesAt leftBuilt.typed rightBuilt.typed built,
    fun targetBuilt built => step_storesAt targetBuilt.typed built⟩

def pointersMachine : Machine :=
  { Machine.blank 256 272 with memory := Memory.store (Memory.store (fun _ => 0) .word 268 512) .word 266 514 }

def bytePlace (name : Bytes) (offset : Int) : Expr :=
  .deref { pos := .start, ty := .byte, writable := true, usesRegisters := true }
    (Build.var .start name ⟨.byte, 1⟩ offset) 0

theorem bytePlace_built (name : Bytes) (offset : Int) : Built .variablesOnly (bytePlace name offset) := by
  have pointer : Built .variablesOnly (Build.var .start name ⟨.byte, 1⟩ offset) :=
    .var _ (show Ty.IsValue ⟨.byte, 1⟩ by decide)
  exact .deref pointer (show Build.deref .start _ = _ from rfl)

def sampleSum : Expr :=
  Build.operation .start .add (Build.var .start "y" .byte (-2)) (Build.literal .start 7 .byte) .byte

theorem sampleSum_built : Built .variablesOnly sampleSum := by
  have y : Built .variablesOnly (Build.var .start "y" .byte (-2)) := .var _ (show Ty.byte.IsValue by decide)
  exact .binary y (.literal .start 7 (show Ty.byte.IsValue by decide)) (by decide)
    (show Build.binary .multiply .start .add _ _ = _ from rfl)

/-- `*p = *q = y + 7`: both values go through the stack while the addresses are found. -/
theorem store_code_exact_nested :
    ∃ inner e, Build.binary .multiply .start .assign (bytePlace "q" (-6)) sampleSum = .ok inner ∧
      Build.binary .multiply .start .assign (bytePlace "p" (-4)) inner = .ok e ∧
      e.StoresAt pointersMachine (pointersMachine.memory.store .byte 514 7) .byte 512 7 := by
  have built : Build.binary .multiply .start .assign (bytePlace "q" (-6)) sampleSum =
      .ok (Build.operation .start .assign (bytePlace "q" (-6)) sampleSum .byte) := rfl
  have innerBuilt := Built.binary (bytePlace_built "q" (-6)) sampleSum_built (by decide) built
  have found : (bytePlace "q" (-6)).place pointersMachine.view = 514 := by decide +kernel
  have sum : sampleSum.eval pointersMachine.view = 7 := by decide +kernel
  have outcome : (Build.operation .start .assign (bytePlace "q" (-6)) sampleSum .byte).outcome pointersMachine.view =
      (⟨272, pointersMachine.memory.store .byte 514 7⟩, 7) := by
    rw [← found, ← sum]
    rfl
  have safe : (Build.operation .start .assign (bytePlace "q" (-6)) sampleSum .byte).SafeOutcome 256
      pointersMachine.view := by
    exact ⟨show sampleSum.Safe 256 pointersMachine.view by decide +kernel,
      show (bytePlace "q" (-6)).Safe 256 pointersMachine.view by decide +kernel⟩
  have safeTarget : (bytePlace "p" (-4)).Safe 256 ⟨272, pointersMachine.memory.store .byte 514 7⟩ := by
    decide +kernel
  have whole : Build.binary .multiply .start .assign (bytePlace "p" (-4))
      (Build.operation .start .assign (bytePlace "q" (-6)) sampleSum .byte) =
      .ok (Build.operation .start .assign (bytePlace "p" (-4))
        (Build.operation .start .assign (bytePlace "q" (-6)) sampleSum .byte) .byte) := rfl
  have stored := (store_code_exact pointersMachine).1 (bytePlace_built "p" (-4)) innerBuilt whole rfl rfl safe
    (by rw [outcome]; exact safeTarget) (by decide +kernel)
  rw [outcome, show (bytePlace "p" (-4)).place _ = 512 by decide +kernel] at stored
  exact ⟨_, _, built, rfl, stored⟩

end Cb
