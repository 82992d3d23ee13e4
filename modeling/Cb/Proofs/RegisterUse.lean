import Cb.Proofs.StoreCode

/-! Trees that are not marked as using registers. Their code does nothing but count variables up and
down where they lie, so a value that waits in a register is still there afterwards. One that waits in
memory is not where the two share a variable. -/

namespace Cb

/-- The slot of the frame that an instruction changes by a fixed amount, if that is all it does. -/
def Instr.countedSlot? : Instr → Option (Width × Int)
  | .inc (.frame w offset) | .dec (.frame w offset) => some (w, offset)
  | .arithmetic .add (.frame w offset) (.immediate _) | .arithmetic .sub (.frame w offset) (.immediate _) =>
    some (w, offset)
  | _ => none

def Machine.counted (m : Machine) (code : List Instr) : List Address :=
  (code.filterMap Instr.countedSlot?).flatMap fun (w, offset) => w.cells (m.bp + .ofInt 16 offset)

structure Machine.Counts (m : Machine) (cells : List Address) (n : Machine) : Prop where
  general : n.general = m.general
  si : n.si = m.si
  sp : n.sp = m.sp
  bp : n.bp = m.bp
  memory : ∀ b ∉ cells, n.memory b = m.memory b

namespace Machine

variable {m n : Machine} {i : Instr} {w : Width} {offset : Int} {cells : List Address}

theorem step_of_countedSlot? (m : Machine) (slot : i.countedSlot? = some (w, offset)) :
    ∃ flags value, m.step i =
      some { m with flags, memory := m.memory.store w (m.bp + .ofInt 16 offset) value } := by
  let old := m.memory.load w (m.bp + .ofInt 16 offset)
  have stepped (change : Int) : m.stepped (.frame w offset) change =
      some { m with
        flags := { Flags.ofResult w (old + change) with carry := m.flags.carry }
        memory := m.memory.store w (m.bp + .ofInt 16 offset) (old + change) } := by
    simp [Machine.stepped, Operand.width?, Machine.get, Machine.set, Machine.address?, old]
  have moved (op : Arithmetic) (amount : Int) (writes : op ≠ .cmp) :
      m.step (.arithmetic op (.frame w offset) (.immediate amount)) =
        some { m with
          flags := .ofResult w (op.apply old (amount % w.modulus))
          memory := m.memory.store w (m.bp + .ofInt 16 offset) (op.apply old (amount % w.modulus)) } := by
    simp [Machine.step, Machine.readPair, Operand.isMemory, Operand.kind, OperandKind.isMemory,
      Operand.width?, Machine.get, Machine.set, Machine.address?, writes, old]
  unfold Instr.countedSlot? at slot
  split at slot <;> cases slot
  · exact ⟨_, _, stepped 1⟩
  · exact ⟨_, _, stepped (-1)⟩
  · exact ⟨_, _, moved .add _ (by decide)⟩
  · exact ⟨_, _, moved .sub _ (by decide)⟩

theorem counts_of_counted {code : List Instr} (counting : ∀ i ∈ code, i.countedSlot?.isSome) (m : Machine) :
    Runs m code (m.Counts (m.counted code)) := by
  induction code generalizing m with
  | nil => exact .nil ⟨rfl, rfl, rfl, rfl, fun _ _ => rfl⟩
  | cons i rest ih =>
    obtain ⟨⟨w, offset⟩, slot⟩ := Option.isSome_iff_exists.mp (counting i List.mem_cons_self)
    obtain ⟨flags, value, stepped⟩ := m.step_of_countedSlot? slot
    obtain ⟨after, ran, later⟩ := ih (fun j listed => counting j (List.mem_cons_of_mem i listed))
      { m with flags, memory := m.memory.store w (m.bp + .ofInt 16 offset) value }
    have cells : m.counted (i :: rest) = w.cells (m.bp + .ofInt 16 offset) ++ m.counted rest := by
      simp [counted, slot]
    refine ⟨after, by simp only [run, stepped]; exact ran, later.general, later.si, later.sp, later.bp, ?_⟩
    intro b outside
    rw [cells, List.mem_append, not_or] at outside
    exact (later.memory b outside.2).trans (m.memory.store_of_not_mem value outside.1)

theorem Counts.read (counts : m.Counts cells n) (r : Register) : n.read r = m.read r := by
  cases r with
  | general letter part => cases part <;> simp only [Machine.read, counts.general]
  | base => simp only [Machine.read, counts.bp]
  | stack => simp only [Machine.read, counts.sp]

theorem Counts.get (counts : m.Counts cells n) {o : Operand} :
    n.get w o = m.get w o ∨ ∃ a, m.address? o = some a ∧ ∃ b ∈ w.cells a, b ∈ cells := by
  by_cases shared : ∃ a, m.address? o = some a ∧ ∃ b ∈ w.cells a, b ∈ cells
  · exact .inr shared
  left
  have apart (a : Address) (found : m.address? o = some a) : ∀ b ∈ w.cells a, b ∉ cells :=
    fun b cell counted => shared ⟨a, found, b, cell, counted⟩
  have located := address?_congr counts.general counts.bp o
  have loaded (a : Address) (found : m.address? o = some a) : n.memory.load w a = m.memory.load w a :=
    Memory.load_congr fun b cell => counts.memory b (apart a found b cell)
  cases o with
  | none | immediate => rfl
  | register r => simp only [Machine.get, counts.read r]
  | frame | data =>
    simp only [Machine.get, located]
    split
    · exact Option.map_congr loaded
    · rfl

end Machine

namespace Lower

structure CountsOnly (l : Lowered) : Prop where
  fine : l.error = none
  result : l.result.kind = .immediate ∨ l.result.kind = .stack
  code : ∀ i ∈ l.code, i.countedSlot?.isSome

theorem CountsOnly.increment {target : Lowered} (counts : CountsOnly target) (place : target.result.kind = .stack)
    (ty : Ty) (down : Bool) : CountsOnly (increment target ty down) := by
  refine ⟨counts.fine, counts.result, fun i emitted => ?_⟩
  obtain ⟨w, offset, slot⟩ : ∃ w offset, target.result = .frame w offset := by
    cases shape : target.result with
    | frame w offset => exact ⟨w, offset, rfl⟩
    | none | immediate | data | register => rw [shape] at place; cases place
  simp only [Lower.increment, slot, List.mem_append, List.mem_singleton] at emitted
  rcases emitted with earlier | rfl
  · exact counts.code i earlier
  · split <;> cases down <;> rfl

theorem CountsOnly.conversion {operand : Lowered} (counts : CountsOnly operand) {source target : Nat}
    (narrow : target ≤ source) : CountsOnly (conversion operand source target) := by
  unfold Lower.conversion
  split
  · exact counts
  · rw [if_pos (by omega)]
    exact ⟨counts.fine, by rw [lowByte_kind]; exact counts.result, counts.code⟩

end Lower

variable {known : Vocabulary} {e : Expr}

theorem Typed.countsOnly (typed : Typed known e) (free : e.usesRegisters = false) :
    Lower.CountsOnly (Lower.expression e) ∧
      (e.isWritable = true → (Lower.expression e).result.kind = .stack) := by
  induction typed with
  | literal => exact ⟨⟨rfl, .inl rfl, List.forall_mem_nil _⟩, nofun⟩
  | var => exact ⟨⟨rfl, .inr rfl, List.forall_mem_nil _⟩, fun _ => rfl⟩
  | deref | addressOfVar | addressOfDeref | call | assign | arithmetic | pointer | shift | comparison => cases free
  | step inner writable scalar ih =>
    obtain ⟨counts, place⟩ := ih free
    exact ⟨counts.increment (place writable) _ _, fun _ => place writable⟩
  | cast inner named varies changes legal ih =>
    rename_i pos ty operand
    have unmarked : (operand.usesRegisters || decide (operand.ty.size < ty.size)) = false := free
    simp only [Bool.or_eq_false_iff, decide_eq_false_iff_not, Nat.not_lt] at unmarked
    exact ⟨(ih unmarked.1).1.conversion unmarked.2, nofun⟩

/-- The mark that a tree uses no registers can be relied on. Its code only counts slots of the frame up
and down, and its value is a number or lies in the frame. As a right operand it is therefore computed
without saving the left one, whatever that is: every register is as the left code left it, and every
operand in memory is where it was. Only an operand that shares a byte with a counted slot may be lost. -/
theorem unmarked_keeps_registers (built : Built known e) (unmarked : e.usesRegisters = false) :
    (Lower.expression e).error = none ∧
    (∀ i ∈ (Lower.expression e).code, i.countedSlot?.isSome) ∧
    ((∃ value, (Lower.expression e).result = .immediate value) ∨
      ∃ w offset, (Lower.expression e).result = .frame w offset) ∧
    ∀ (left : Lowered) (w : Width) (m k : Machine), m.run left.code = some k →
      Runs m (Lower.operands left (Lower.expression e) w e.usesRegisters).code fun n =>
        n.si = k.si ∧ (∀ r, n.read r = k.read r) ∧ (∀ o, n.address? o = k.address? o) ∧
        (∀ b ∉ k.counted (Lower.expression e).code, n.memory b = k.memory b) ∧
        ∀ o, n.get w o = k.get w o ∨
          ∃ a, k.address? o = some a ∧ ∃ b ∈ w.cells a, b ∈ k.counted (Lower.expression e).code := by
  obtain ⟨fine, result, code⟩ := (built.typed.countsOnly unmarked).1
  refine ⟨fine, code, ?_, fun left w m k ran => ?_⟩
  · cases shape : (Lower.expression e).result with
    | immediate value => exact .inl ⟨value, rfl⟩
    | frame w offset => exact .inr ⟨w, offset, rfl⟩
    | none | data | register => simp [shape, Operand.kind] at result
  · have started : Runs m left.code (· = k) := ⟨k, ran, rfl⟩
    have unsaved : (Lower.operands left (Lower.expression e) w e.usesRegisters).code =
        left.code ++ (Lower.expression e).code := by
      simp [Lower.operands, unmarked]
    rw [unsaved]
    refine started.append fun _ reached => ?_
    subst reached
    refine (Machine.counts_of_counted code _).imp fun n counts => ?_
    exact ⟨counts.si, counts.read, Machine.address?_congr counts.general counts.bp, counts.memory, fun _ => counts.get⟩

def sampleCount : Expr :=
  .step { pos := .start, ty := .int, writable := true } (Build.var .start "x" .int (-2)) false

def samplePlace : Expr :=
  .deref { pos := .start, ty := .int, writable := true, usesRegisters := true } (Build.var .start "p" ⟨.int, 1⟩ (-4)) 0

theorem sampleCount_built : Built .variablesOnly sampleCount :=
  .step (.var .start (show Ty.int.IsValue by decide)) (show Build.step .start _ false = .ok sampleCount from rfl)

theorem samplePlace_built : Built .variablesOnly samplePlace :=
  .deref (.var .start (show Ty.IsValue ⟨.int, 1⟩ by decide)) (show Build.deref .start _ = .ok samplePlace from rfl)

def pointingMachine (p : Int) : Machine :=
  { Machine.blank 256 272 with
    memory := Memory.store (Memory.store (Memory.store (fun _ => 0) .word 512 7) .word 270 5) .word 268 p }

/-- The address of `*p` stays in its register while `++x` is computed. -/
theorem unmarked_keeps_registers_place :
    ∃ left, left = Lower.expression samplePlace ∧
      Runs (pointingMachine 512)
        (Lower.operands left (Lower.expression sampleCount) .word sampleCount.usesRegisters).code fun n => n.address? left.result = some 512 ∧ n.get .word left.result = some 7 := by
  have before : ((pointingMachine 512).run (Lower.expression samplePlace).code).map (fun k =>
      (k.address? (Lower.expression samplePlace).result, k.get .word (Lower.expression samplePlace).result,
        k.counted (Lower.expression sampleCount).code)) = some (some 512, some 7, [270, 271]) := by decide +kernel
  obtain ⟨k, ran, found⟩ := Option.map_eq_some_iff.mp before
  refine ⟨_, rfl, ?_⟩
  generalize Lower.expression samplePlace = left at ran found ⊢
  obtain ⟨place, value, cells⟩ : k.address? left.result = some 512 ∧ k.get .word left.result = some 7 ∧
      k.counted (Lower.expression sampleCount).code = [270, 271] := by
    simpa only [Prod.mk.injEq] using found
  refine ((unmarked_keeps_registers sampleCount_built rfl).2.2.2 left .word _ k ran).imp fun n after => ?_
  obtain ⟨-, -, located, -, kept⟩ := after
  refine ⟨(located _).trans place, ?_⟩
  rcases kept left.result with same | ⟨a, there, b, cell, counted⟩
  · exact same.trans value
  · rw [place] at there
    cases there
    rw [cells] at counted
    have apart : ∀ b ∈ Width.word.cells 512, b ∉ ([270, 271] : List Address) := by simp [Width.cells]
    exact absurd counted (apart b cell)

/-- `*p + ++x` with `p = &x`. No register is written by `++x`, so that `*p` is not saved, and it is read as 6 and not as
the 5 that it was: the sum is 12. -/
theorem unsaved_place_changes :
    ∃ sum, Build.binary .multiply .start .add samplePlace sampleCount = .ok sum ∧ Built .variablesOnly sum ∧
      sampleCount.usesRegisters = false ∧
      ((pointingMachine 270).run (Lower.expression samplePlace).code).bind
        (·.get .word (Lower.expression samplePlace).result) = some 5 ∧
      ((pointingMachine 270).run (Lower.operands (Lower.expression samplePlace) (Lower.expression sampleCount) .word
        sampleCount.usesRegisters).code).bind (·.get .word (Lower.expression samplePlace).result) = some 6 ∧
      ((pointingMachine 270).run (Lower.expression sum).code).bind (·.get .word (Lower.expression sum).result) =
        some 12 := by
  have built : Build.binary .multiply .start .add samplePlace sampleCount =
      .ok (Build.operation .start .add samplePlace sampleCount .int) := rfl
  refine ⟨_, built, .binary samplePlace_built sampleCount_built (by decide) built, rfl, ?_⟩
  decide +kernel

end Cb
