import Cb.Proofs.LoweredCode
import Mathlib.Algebra.Ring.Int.Defs

/-! The 16-bit target: registers with their halves, flags, and 64K of memory whose addresses wrap
around. Stack and data share one segment. Instructions that the processor does not have, such as one
with two memory operands, have no successor; neither has a division that faults. -/

namespace Cb

abbrev Address := BitVec 16

abbrev Memory := Address → BitVec 8

namespace Width

def modulus : Width → Int
  | .byte => 256
  | .word => 65536

def cells : Width → Address → List Address
  | .byte, a => [a]
  | .word, a => [a, a + 1]

theorem modulus_pos (w : Width) : 0 < w.modulus := by
  cases w <;> decide

end Width

namespace Memory

def load (memory : Memory) : Width → Address → Int
  | .byte, a => (memory a).toNat
  | .word, a => (memory a).toNat + 256 * (memory (a + 1)).toNat

def store (memory : Memory) (w : Width) (a : Address) (value : Int) : Memory := fun b =>
  if b = a then .ofInt 8 value
  else if w = .word ∧ b = a + 1 then .ofInt 8 (value / 256)
  else memory b

theorem load_nonneg (memory : Memory) (w : Width) (a : Address) : 0 ≤ memory.load w a := by
  cases w <;> simp only [load] <;> omega

theorem load_lt (memory : Memory) (w : Width) (a : Address) : memory.load w a < w.modulus := by
  have low := (memory a).isLt
  have high := (memory (a + 1)).isLt
  cases w <;> simp only [load, Width.modulus] <;> omega

theorem load_congr {memory other : Memory} {w : Width} (same : ∀ b ∈ w.cells a, memory b = other b) :
    memory.load w a = other.load w a := by
  cases w with
  | byte => rw [load, load, same a (by simp [Width.cells])]
  | word => rw [load, load, same a (by simp [Width.cells]), same (a + 1) (by simp [Width.cells])]

theorem store_of_not_mem (memory : Memory) {w : Width} (value : Int) (other : b ∉ w.cells a) :
    memory.store w a value b = memory b := by
  cases w with
  | byte =>
    simp only [Width.cells, List.mem_singleton] at other
    simp [store, other]
  | word =>
    simp only [Width.cells, List.mem_cons, List.not_mem_nil, or_false, not_or] at other
    simp only [store, other, and_false, ↓reduceIte]

theorem load_store (memory : Memory) (w : Width) (a : Address) (value : Int) :
    (memory.store w a value).load w a = value % w.modulus := by
  cases w with
  | byte => simp [load, store, Width.modulus]; omega
  | word =>
    simp [load, store, Width.modulus]
    omega

theorem load_byte (memory : Memory) (a : Address) : memory.load .byte a = memory.load .word a % 256 := by
  have low := (memory a).isLt
  simp only [load]
  omega

end Memory

structure Halves where
  low : BitVec 8
  high : BitVec 8
deriving DecidableEq

structure Flags where
  zero : Bool
  carry : Bool
deriving DecidableEq

structure Machine where
  general : Letter → Halves
  si : Address
  sp : Address
  bp : Address
  flags : Flags
  memory : Memory

namespace Register

def width : Register → Width
  | .general _ .full | .base | .stack => .word
  | .general _ .low | .general _ .high => .byte

def isApart : Register → Register → Bool
  | .general first part, .general second other =>
    first ≠ second || (part ≠ other && part ≠ .full && other ≠ .full)
  | first, second => first ≠ second

end Register

def Machine.blank (sp bp : Address) : Machine where
  general _ := ⟨0, 0⟩
  si := 0
  sp := sp
  bp := bp
  flags := ⟨false, false⟩
  memory _ := 0

def Width.upper : Width → Register
  | .byte => .ah
  | .word => .dx

namespace Operand

def width? : Operand → Option Width
  | .frame w _ | .data w _ _ => some w
  | .register r => some r.width
  | .immediate _ | .none => Option.none

end Operand

def Arithmetic.apply : Arithmetic → Int → Int → Int
  | .add, a, b => a + b
  | .sub, a, b | .cmp, a, b => a - b
  | .and, a, b => (a.toNat &&& b.toNat : Nat)
  | .or, a, b => (a.toNat ||| b.toNat : Nat)
  | .xor, a, b => (a.toNat ^^^ b.toNat : Nat)

def Flags.ofResult (w : Width) (result : Int) : Flags :=
  { zero := result % w.modulus = 0, carry := result < 0 || w.modulus ≤ result }

def Flags.satisfy (flags : Flags) : Operator → Bool
  | .equal => flags.zero
  | .notEqual => !flags.zero
  | .greater => !flags.carry && !flags.zero
  | .greaterEqual => !flags.carry
  | .less => flags.carry
  | .lessEqual => flags.carry || flags.zero
  | _ => false

namespace Machine

def read (m : Machine) : Register → Int
  | .general letter .low => (m.general letter).low.toNat
  | .general letter .high => (m.general letter).high.toNat
  | .general letter .full => (m.general letter).low.toNat + 256 * (m.general letter).high.toNat
  | .base => m.bp.toNat
  | .stack => m.sp.toNat

def setGeneral (m : Machine) (letter : Letter) (halves : Halves) : Machine :=
  { m with general := fun other => if other = letter then halves else m.general other }

def write (m : Machine) (value : Int) : Register → Machine
  | .general letter .low => m.setGeneral letter { m.general letter with low := .ofInt 8 value }
  | .general letter .high => m.setGeneral letter { m.general letter with high := .ofInt 8 value }
  | .general letter .full => m.setGeneral letter { low := .ofInt 8 value, high := .ofInt 8 (value / 256) }
  | .base => { m with bp := .ofInt 16 value }
  | .stack => { m with sp := .ofInt 16 value }

def address? (m : Machine) : Operand → Option Address
  | .frame _ offset => some (m.bp + .ofInt 16 offset)
  | .data _ .bx displacement => some (.ofInt 16 (m.read .bx + displacement))
  | .data _ (.address value) displacement => some (.ofInt 16 (value + displacement))
  | .immediate _ | .register _ | .none => none

def get (m : Machine) (w : Width) (o : Operand) : Option Int :=
  match o with
  | .immediate value => some (value % w.modulus)
  | .register r => if r.width = w then some (m.read r) else none
  | .frame v _ | .data v _ _ => if v = w then (m.address? o).map (m.memory.load w) else none
  | .none => none

def set (m : Machine) (w : Width) (o : Operand) (value : Int) : Option Machine :=
  match o with
  | .register r => if r.width = w then some (m.write value r) else none
  | .frame v _ | .data v _ _ =>
    if v = w then (m.address? o).map fun a => { m with memory := m.memory.store w a value } else none
  | .immediate _ | .none => none

def push (m : Machine) (w : Width) (value : Int) : Machine :=
  let sp := m.sp - .ofNat 16 w.bytes
  { m with sp, memory := m.memory.store w sp value }

def dropped (m : Machine) (bytes : Int) : Machine := { m with sp := m.sp + .ofInt 16 bytes }

def readPair (m : Machine) (target source : Operand) : Option (Width × Int) :=
  if target.isMemory && source.isMemory then none
  else do
    let w ← target.width?
    let value ← m.get w source
    return (w, value)

def shifted (m : Machine) (target : Operand) (count : Int) (result : Int → Int) (lost : Width → Int → Bool) :
    Option Machine := do
  let w ← target.width?
  let value ← m.get w target
  let flags := if count = 0 then m.flags else ⟨result value % w.modulus = 0, lost w value⟩
  { m with flags }.set w target (result value)

def stepped (m : Machine) (target : Operand) (change : Int) : Option Machine := do
  let w ← target.width?
  let value ← m.get w target
  let flags := { Flags.ofResult w (value + change) with carry := m.flags.carry }
  { m with flags }.set w target (value + change)

def step (m : Machine) : Instr → Option Machine
  | .mov target source => do
    let (w, value) ← m.readPair target source
    m.set w target value
  | .arithmetic op target source => do
    let (w, value) ← m.readPair target source
    let result := op.apply (← m.get w target) value
    let after := { m with flags := .ofResult w result }
    if op = .cmp then return after else after.set w target result
  | .shiftLeft target (.immediate count) =>
    m.shifted target count (· * 2 ^ count.toNat) fun w value => value * 2 ^ count.toNat / w.modulus % 2 = 1
  | .shiftRight target (.immediate count) =>
    m.shifted target count (· / 2 ^ count.toNat) fun _ value => value / 2 ^ (count.toNat - 1) % 2 = 1
  | .mul source => do
    let w ← source.width?
    let product := m.read (Lower.accumulator w) * (← m.get w source)
    let after := { m with flags := { m.flags with carry := w.modulus ≤ product } }
    return (after.write product (Lower.accumulator w)).write (product / w.modulus) w.upper
  | .div source => do
    let w ← source.width?
    let divisor ← m.get w source
    let dividend := m.read (Lower.accumulator w) + w.modulus * m.read w.upper
    -- The processor traps on zero and on quotients that do not fit.
    if divisor = 0 || w.modulus ≤ dividend / divisor then none
    else return (m.write (dividend / divisor) (Lower.accumulator w)).write (dividend % divisor) w.upper
  | .inc target => m.stepped target 1
  | .dec target => m.stepped target (-1)
  | .push source => do return m.push .word (← m.get .word source)
  | .pop target => (m.dropped 2).set .word target (m.memory.load .word m.sp)
  | .pushByte source =>
    if source.isMemory then none
    else do
      let value ← m.get .byte source
      let after := m.push .byte value
      return { after with si := after.sp, flags := .ofResult .word (m.sp.toNat - 1) }
  | .popByte target =>
    if target.isMemory then none
    else do
      let after ← { m with si := m.sp }.set .byte target (m.memory.load .byte m.sp)
      return { after.dropped 1 with flags := .ofResult .word (after.sp.toNat + 1) }
  | .popBytes count => some { m.dropped count with flags := .ofResult .word (m.sp.toNat + count) }
  | _ => none

def run (m : Machine) : List Instr → Option Machine
  | [] => some m
  | i :: rest => (m.step i).bind (·.run rest)

theorem read_bounds (m : Machine) (r : Register) : 0 ≤ m.read r ∧ m.read r < r.width.modulus := by
  cases r with
  | general letter part =>
    have low := (m.general letter).low.isLt
    have high := (m.general letter).high.isLt
    cases part <;> simp only [read, Register.width, Width.modulus] <;> omega
  | base =>
    have bound := m.bp.isLt
    simp only [read, Register.width, Width.modulus]
    omega
  | stack =>
    have bound := m.sp.isLt
    simp only [read, Register.width, Width.modulus]
    omega

theorem get_bounds {m : Machine} (held : m.get w o = some value) :
    0 ≤ value ∧ value < w.modulus := by
  have memory (a : Option Address) (found : a.map (m.memory.load w) = some value) :
      0 ≤ value ∧ value < w.modulus := by
    obtain ⟨a, -, rfl⟩ := Option.map_eq_some_iff.mp found
    exact ⟨Memory.load_nonneg m.memory w a, Memory.load_lt m.memory w a⟩
  cases o with
  | none => cases held
  | immediate n =>
    cases held
    exact ⟨Int.emod_nonneg n (Int.ne_of_gt w.modulus_pos), Int.emod_lt_of_pos n w.modulus_pos⟩
  | register r =>
    simp only [get] at held
    split at held
    · rename_i wide
      cases held
      exact wide ▸ m.read_bounds r
    · cases held
  | frame v offset | data v base displacement =>
    simp only [get] at held
    split at held
    · exact memory _ held
    · cases held

end Machine

namespace Register

def isGeneral : Register → Bool
  | .general _ _ => true
  | .base | .stack => false

theorem ne_stack_of_isGeneral {r : Register} (general : r.isGeneral = true) : r ≠ .stack := by
  rintro rfl
  cases general

end Register

def Operand.avoids (r : Register) : Operand → Bool
  | .register other => r.isApart other
  | .data _ .bx _ => r.isApart .bx
  | .frame _ _ | .data _ (.address _) _ | .immediate _ | .none => true

namespace Machine

section Write

variable (m : Machine) (value : Int) {r : Register}

theorem write_sp (general : r.isGeneral = true) : (m.write value r).sp = m.sp := by
  cases r with
  | general letter part => cases part <;> rfl
  | base | stack => cases general

theorem write_bp (general : r.isGeneral = true) : (m.write value r).bp = m.bp := by
  cases r with
  | general letter part => cases part <;> rfl
  | base | stack => cases general

theorem write_memory : (m.write value r).memory = m.memory := by
  cases r with
  | general letter part => cases part <;> rfl
  | base | stack => rfl

theorem read_write (r : Register) : (m.write value r).read r = value % r.width.modulus := by
  cases r with
  | general letter part =>
    cases part <;> simp [write, setGeneral, read, Register.width, Width.modulus] <;> omega
  | base | stack =>
    simp [write, read, Register.width, Width.modulus]
    omega

theorem read_write_of_lt {value : Int} (r : Register) (lower : 0 ≤ value) (upper : value < r.width.modulus) :
    (m.write value r).read r = value := by
  rw [m.read_write value r, Int.emod_eq_of_lt lower upper]

theorem read_write_of_isApart (general : r.isGeneral = true) (apart : r.isApart other = true) :
    (m.write value r).read other = m.read other := by
  cases r with
  | base | stack => cases general
  | general letter part =>
    cases other with
    | base => cases part <;> rfl
    | stack => cases part <;> rfl
    | general second other =>
      by_cases same : second = letter
      · subst same
        cases part <;> cases other <;> simp_all [Register.isApart, write, setGeneral, read]
      · cases part <;> cases other <;> simp [write, setGeneral, read, same]

theorem address?_write (general : r.isGeneral = true) {o : Operand} (avoids : o.avoids r = true) :
    (m.write value r).address? o = m.address? o := by
  cases o with
  | none | immediate | register => rfl
  | frame w offset => simp only [address?, m.write_bp value general]
  | data w base displacement =>
    cases base with
    | bx => simp only [address?, m.read_write_of_isApart value general avoids]
    | address n => rfl

theorem get_write_of_avoids (general : r.isGeneral = true) (w : Width) {o : Operand}
    (avoids : o.avoids r = true) : (m.write value r).get w o = m.get w o := by
  have located := m.address?_write value general avoids
  cases o with
  | none | immediate => rfl
  | register other => simp only [get, m.read_write_of_isApart value general avoids]
  | frame v offset | data v base displacement => simp only [get, located, m.write_memory]

end Write

theorem run_append (m : Machine) (first second : List Instr) :
    m.run (first ++ second) = (m.run first).bind (·.run second) := by
  induction first generalizing m with
  | nil => rfl
  | cons i rest ih =>
    simp only [List.cons_append, run]
    cases m.step i with
    | none => rfl
    | some n => exact ih n

end Machine

def Runs (m : Machine) (code : List Instr) (goal : Machine → Prop) : Prop :=
  ∃ after, m.run code = some after ∧ goal after

namespace Runs

variable {m : Machine} {goal : Machine → Prop}

theorem nil (reached : goal m) : Runs m [] goal := ⟨m, rfl, reached⟩

theorem single (stepped : m.step i = some after) (reached : goal after) :
    Runs m [i] goal := ⟨after, by simp [Machine.run, stepped], reached⟩

theorem append (head : Runs m first middle) (tail : ∀ n, middle n → Runs n second goal) :
    Runs m (first ++ second) goal := by
  obtain ⟨n, ranFirst, reached⟩ := head
  obtain ⟨after, ranSecond, done⟩ := tail n reached
  exact ⟨after, by rw [Machine.run_append, ranFirst]; exact ranSecond, done⟩

theorem cons (head : Runs m [i] middle) (tail : ∀ n, middle n → Runs n rest goal) :
    Runs m (i :: rest) goal := append head tail

theorem imp (runs : Runs m code goal) (implies : ∀ n, goal n → weaker n) : Runs m code weaker := by
  obtain ⟨after, ran, reached⟩ := runs
  exact ⟨after, ran, implies after reached⟩

end Runs

theorem Runs.and (one : Runs m code first) (other : Runs m code second) : Runs m code fun n => first n ∧ second n := by
  obtain ⟨after, ran, holds⟩ := one
  obtain ⟨again, ranAgain, also⟩ := other
  rw [ran] at ranAgain
  cases ranAgain
  exact ⟨after, ran, holds, also⟩

def stackDepth : List Instr → Int
  | [] => 0
  | i :: rest => max 0 (stackDepth rest - i.stackEffect fun _ => 0)

theorem stackDepth_nonneg (code : List Instr) : 0 ≤ stackDepth code := by
  cases code with
  | nil => exact Int.le_refl 0
  | cons i rest => exact Int.le_max_left 0 _

theorem stackDepth_append (first second : List Instr) :
    stackDepth (first ++ second) =
      max (stackDepth first) (stackDepth second - netEffect (fun _ => 0) first) := by
  induction first with
  | nil =>
    have nonneg := stackDepth_nonneg second
    simp only [List.nil_append, stackDepth, netEffect_nil]
    omega
  | cons i rest ih =>
    simp only [List.cons_append, stackDepth, ih, netEffect_cons]
    omega

theorem stackDepth_left {room : Int} (enough : stackDepth (first ++ second) ≤ room) : stackDepth first ≤ room := by
  rw [stackDepth_append] at enough
  exact Int.le_trans (Int.le_max_left _ _) enough

def Clear (low : Address) (w : Width) (a : Address) : Prop := ∀ b ∈ w.cells a, low ≤ b

-- The general instance for words would try all of them.
instance (low : Address) (w : Width) (a : Address) : Decidable (Clear low w a) :=
  decidable_of_iff ((w.cells a).all fun b => decide (low ≤ b)) (by simp [Clear])

namespace Machine

structure Sees (m n : Machine) : Prop where
  bp : n.bp = m.bp
  sp : n.sp ≤ m.sp
  memory : ∀ a, m.sp ≤ a → n.memory a = m.memory a

structure Kept (m n : Machine) : Prop where
  bp : n.bp = m.bp
  sp : n.sp = m.sp
  memory : ∀ a, m.sp ≤ a → n.memory a = m.memory a

structure Holds (m : Machine) (w : Width) (o : Operand) (value : Int) : Prop where
  value : m.get w o = some value
  clear : ∀ a, m.address? o = some a → Clear m.sp w a

theorem Sees.refl (m : Machine) : m.Sees m := ⟨rfl, BitVec.le_refl _, fun _ _ => rfl⟩

variable {m n k : Machine} {r : Register} {w : Width} {o : Operand}

theorem Sees.trans (first : m.Sees n) (second : n.Sees k) : m.Sees k :=
  ⟨second.bp.trans first.bp, BitVec.le_trans second.sp first.sp,
    fun a above => (second.memory a (BitVec.le_trans first.sp above)).trans (first.memory a above)⟩

theorem Kept.sees (kept : m.Kept n) : m.Sees n := ⟨kept.bp, by rw [kept.sp]; exact BitVec.le_refl _, kept.memory⟩

theorem Kept.refl (m : Machine) : m.Kept m := ⟨rfl, rfl, fun _ _ => rfl⟩

theorem Kept.trans (first : m.Kept n) (second : n.Kept k) : m.Kept k :=
  ⟨second.bp.trans first.bp, second.sp.trans first.sp,
    fun a above => (second.memory a (first.sp ▸ above)).trans (first.memory a above)⟩

theorem Kept.write (kept : m.Kept n) (value : Int) (general : r.isGeneral = true) : m.Kept (n.write value r) :=
  ⟨(n.write_bp value general).trans kept.bp, (n.write_sp value general).trans kept.sp,
    fun a above => by rw [n.write_memory value]; exact kept.memory a above⟩

theorem Holds.of_register {value : Int} (wide : r.width = w) (read : m.read r = value) :
    m.Holds w (.register r) value :=
  ⟨by simp [get, wide, read], fun _ found => nomatch found⟩

theorem Holds.of_kept {value : Int} (held : m.Holds w o value) (kept : m.Kept n) (steady : o.isVolatile = false) :
    n.Holds w o value := by
  cases o with
  | none => cases held.value
  | immediate => exact ⟨held.value, fun _ found => nomatch found⟩
  | data => cases steady
  | register => cases steady
  | frame v offset =>
    have located : n.address? (.frame v offset) = m.address? (.frame v offset) := by
      simp only [address?, kept.bp]
    have clear := held.clear _ rfl
    refine ⟨?_, by rw [located, kept.sp]; exact held.clear⟩
    rw [← held.value]
    simp only [get, located]
    split
    · simp only [address?, Option.map_some]
      exact congrArg some (Memory.load_congr fun b cell => kept.memory b (clear b cell))
    · rfl

structure Alike (m n : Machine) : Prop where
  general : n.general = m.general
  bp : n.bp = m.bp
  memory : n.memory = m.memory

theorem Alike.read (alike : m.Alike n) (free : r ≠ .stack) : n.read r = m.read r := by
  cases r with
  | general letter part => cases part <;> simp only [Machine.read, alike.general]
  | base => simp only [Machine.read, alike.bp]
  | stack => exact absurd rfl free

theorem address?_congr (general : n.general = m.general) (bp : n.bp = m.bp) (o : Operand) :
    n.address? o = m.address? o := by
  cases o with
  | none | immediate | register => rfl
  | frame w offset => simp only [Machine.address?, bp]
  | data w base displacement =>
    cases base with
    | address => rfl
    | bx => simp only [Machine.address?, Register.bx, Machine.read, general]

theorem Alike.address? (alike : m.Alike n) (o : Operand) : n.address? o = m.address? o :=
  address?_congr alike.general alike.bp o

theorem Alike.get (alike : m.Alike n) (w : Width) (free : o ≠ .register .stack) : n.get w o = m.get w o := by
  have located := alike.address? o
  cases o with
  | none | immediate => rfl
  | frame v offset | data v base displacement => simp only [Machine.get, located, alike.memory]
  | register r => simp only [Machine.get, alike.read (fun stack => free (congrArg Operand.register stack))]

theorem Kept.alike (kept : m.Kept n) (alike : n.Alike k) (same : k.sp = n.sp) : m.Kept k :=
  ⟨alike.bp.trans kept.bp, same.trans kept.sp, fun a above => by rw [alike.memory]; exact kept.memory a above⟩

end Machine

namespace Machine

variable (m : Machine) (r : Register)

@[simp] theorem get_register : m.get r.width (.register r) = some (m.read r) := by simp [get]

@[simp] theorem set_register (value : Int) : m.set r.width (.register r) value = some (m.write value r) := by
  simp [set]

theorem read_of_get {m : Machine} {r : Register} (wide : r.width = w) (held : m.get w (.register r) = some value) :
    m.read r = value := by
  subst wide
  exact Option.some.inj ((m.get_register r).symm.trans held)

theorem readPair_register {m : Machine} {r : Register} (held : m.get r.width source = some value) :
    m.readPair (.register r) source = some (r.width, value) := by
  simp [readPair, Operand.isMemory, Operand.kind, OperandKind.isMemory, Operand.width?, held]

end Machine

namespace Runs

variable {m : Machine} {goal : Machine → Prop}

variable {source : Operand} {value : Int} {r : Register} {w : Width}

theorem mov (r : Register) (held : m.get r.width source = some value) (reached : goal (m.write value r)) :
    Runs m [.mov (.register r) source] goal := by
  have stepped : m.step (.mov (.register r) source) = some (m.write value r) := by
    simp [Machine.step, Machine.readPair_register held]
  exact single stepped reached

theorem arithmetic (writes : op ≠ .cmp) (general : r.isGeneral = true) (held : m.get r.width source = some value)
    (reached : ∀ n, (m.write (op.apply (m.read r) value) r).Alike n → n.sp = m.sp → goal n) :
    Runs m [.arithmetic op (.register r) source] goal := by
  let flagged : Machine := { m with flags := .ofResult r.width (op.apply (m.read r) value) }
  have stepped : m.step (.arithmetic op (.register r) source) =
      some (flagged.write (op.apply (m.read r) value) r) := by
    simp [Machine.step, Machine.readPair_register held, writes, flagged]
  refine single stepped (reached _ ?_ (flagged.write_sp _ general))
  cases r with
  | general letter part => cases part <;> exact ⟨rfl, rfl, rfl⟩
  | base | stack => cases general

theorem compare (held : m.get r.width source = some value)
    (reached : goal { m with flags := .ofResult r.width (m.read r - value) }) :
    Runs m [.arithmetic .cmp (.register r) source] goal := by
  have stepped : m.step (.arithmetic .cmp (.register r) source) =
      some { m with flags := .ofResult r.width (m.read r - value) } := by
    simp [Machine.step, Machine.readPair_register held, Arithmetic.apply]
  exact single stepped reached

theorem pushByte (wide : r.width = .byte)
    (reached : ∀ n, n.bp = m.bp → n.sp = m.sp - 1 → n.memory = m.memory.store .byte n.sp (m.read r) → goal n) :
    Runs m [.pushByte (.register r)] goal := by
  have held : m.get .byte (.register r) = some (m.read r) := wide ▸ m.get_register r
  have stepped : m.step (.pushByte (.register r)) = some { m.push .byte (m.read r) with
      si := m.sp - 1, flags := .ofResult .word (m.sp.toNat - 1) } := by
    simp [Machine.step, Operand.isMemory, Operand.kind, OperandKind.isMemory, held, Machine.push, Width.bytes]
  exact single stepped (reached _ rfl rfl rfl)

theorem save (held : m.get w o = some value) (volatile : o.isVolatile = true)
    (reached : ∀ n, n.bp = m.bp → n.sp = m.sp - .ofNat 16 w.bytes → n.memory = m.memory.store w n.sp value → goal n) :
    Runs m (Lower.save w o) goal := by
  cases w with
  | word =>
    have stepped : m.step (.push o) = some (m.push .word value) := by simp [Machine.step, held]
    exact single stepped (reached _ rfl rfl rfl)
  | byte =>
    cases o with
    | none | immediate | frame => cases volatile
    | data v base displacement =>
      have bounds := Machine.get_bounds held
      refine cons (mov .al held rfl) ?_
      rintro n rfl
      refine pushByte rfl fun n bp sp memory => ?_
      rw [m.write_memory value, m.read_write value .al] at memory
      refine reached n (bp.trans (m.write_bp value rfl)) ?_ ?_
      · rw [sp, m.write_sp value rfl]
        rfl
      · rw [memory, show value % Register.al.width.modulus = value from Int.emod_eq_of_lt bounds.1 bounds.2]
    | register r =>
      simp only [Machine.get] at held
      split at held
      · rename_i wide
        cases held
        exact pushByte wide reached
      · cases held

theorem load (wide : r.width = w) (general : r.isGeneral = true)
    (reached : ∀ n, (m.write (m.memory.load w m.sp) r).Alike n → n.sp = m.sp + .ofNat 16 w.bytes → goal n) :
    Runs m [Lower.load w (.register r)] goal := by
  have placed (start : Machine) (value : Int) : start.set w (.register r) value = some (start.write value r) :=
    wide ▸ start.set_register r value
  have started (start : Machine) (same : m.Alike start) (value : Int) :
      (m.write value r).Alike (start.write value r) := by
    cases r with
    | base | stack => cases general
    | general letter part =>
      cases part <;> exact ⟨by simp only [Machine.write, Machine.setGeneral, same.general], same.bp, same.memory⟩
  cases w with
  | word =>
    have stepped : m.step (.pop (.register r)) = some ((m.dropped 2).write (m.memory.load .word m.sp) r) := by
      simp only [Machine.step, placed]
    refine single stepped (reached _ (started (m.dropped 2) ⟨rfl, rfl, rfl⟩ _) ?_)
    exact (m.dropped 2).write_sp _ general
  | byte =>
    let aimed : Machine := { m with si := m.sp }
    let fetched := aimed.write (m.memory.load .byte m.sp) r
    have stepped : m.step (.popByte (.register r)) =
        some { fetched.dropped 1 with flags := .ofResult .word (fetched.sp.toNat + 1) } := by
      simp only [Machine.step, Operand.isMemory, Operand.kind, OperandKind.isMemory, placed]
      rfl
    have alike := started aimed ⟨rfl, rfl, rfl⟩ (m.memory.load .byte m.sp)
    refine single stepped (reached _ ⟨alike.general, alike.bp, alike.memory⟩ ?_)
    exact congrArg (· + 1) (aimed.write_sp _ general)

theorem shifted (shifts : m.step i = m.shifted (.register r) count result lost) (general : r.isGeneral = true)
    (reached : ∀ n, (m.write (result (m.read r)) r).Alike n → n.sp = m.sp → goal n) : Runs m [i] goal := by
  let flagged : Machine := { m with
    flags := if count = 0 then m.flags
      else ⟨result (m.read r) % r.width.modulus = 0, lost r.width (m.read r)⟩ }
  have stepped : m.step i = some (flagged.write (result (m.read r)) r) := by
    simp [shifts, Machine.shifted, Operand.width?, flagged]
  refine single stepped (reached _ ?_ (flagged.write_sp _ general))
  cases r with
  | general letter part => cases part <;> exact ⟨rfl, rfl, rfl⟩
  | base | stack => cases general

theorem mul (wide : source.width? = some w) (held : m.get w source = some value)
    (reached : ∀ n, ((m.write (m.read (Lower.accumulator w) * value) (Lower.accumulator w)).write
      (m.read (Lower.accumulator w) * value / w.modulus) w.upper).Alike n → n.sp = m.sp → goal n) :
    Runs m [.mul source] goal := by
  let product := m.read (Lower.accumulator w) * value
  let flagged : Machine := { m with flags := { m.flags with carry := w.modulus ≤ product } }
  have stepped : m.step (.mul source) =
      some ((flagged.write product (Lower.accumulator w)).write (product / w.modulus) w.upper) := by
    simp [Machine.step, wide, held, flagged, product]
  refine single stepped (reached _ ?_ ?_)
  · cases w <;> exact ⟨rfl, rfl, rfl⟩
  · cases w <;> rfl

theorem div (wide : source.width? = some w) (held : m.get w source = some divisor) (cleared : m.read w.upper = 0)
    (nonzero : divisor ≠ 0)
    (reached : goal ((m.write (m.read (Lower.accumulator w) / divisor) (Lower.accumulator w)).write
      (m.read (Lower.accumulator w) % divisor) w.upper)) : Runs m [.div source] goal := by
  have bounds := m.read_bounds (Lower.accumulator w)
  have positive := (Machine.get_bounds held).1
  have fits : ¬ w.modulus ≤ m.read (Lower.accumulator w) / divisor := by
    have quotient := Int.ediv_le_self divisor bounds.1
    cases w <;> simp only [Lower.accumulator, Register.sized, Register.width, Width.modulus] at * <;> omega
  have stepped : m.step (.div source) = some ((m.write (m.read (Lower.accumulator w) / divisor)
      (Lower.accumulator w)).write (m.read (Lower.accumulator w) % divisor) w.upper) := by
    simp [Machine.step, wide, held, cleared, nonzero, fits]
  exact single stepped reached

end Runs

end Cb
