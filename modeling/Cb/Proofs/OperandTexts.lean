import Cb.Proofs.JumpTargets
import Cb.Proofs.TreeRules
import Mathlib.Algebra.Group.Nat.Defs

/-! Operands as they are written: values are held in operands of the width of their type, and an instruction
with two operands never mixes widths. -/

namespace Cb

def byteRegisters : List Bytes := ["al", "ah", "bl", "bh", "cl", "ch", "dl", "dh"]

def wordRegisters : List Bytes := ["ax", "bx", "cx", "dx", "si", "di", "bp", "sp", "cs", "ds", "es", "ss"]

def writtenWidth? (text : Bytes) : Option Width :=
  if (Width.pointer .byte).isPrefixOf text then some .byte
  else if (Width.pointer .word).isPrefixOf text then some .word
  else if text ∈ byteRegisters then some .byte
  else if text ∈ wordRegisters then some .word
  else none

def isWrittenInMemory (text : Bytes) : Bool := text.contains 91

structure WrittenPair where
  name : Bytes
  target : Bytes
  source : Bytes
deriving DecidableEq

def pairNames : List Bytes := ["mov", "add", "sub", "and", "or", "xor", "cmp"]

def WrittenPair.read? (text : Bytes) : Option WrittenPair := do
  let (name, operands) ← Bytes.cut? 32 text
  let (target, rest) ← Bytes.cut? 44 operands
  let source ← Bytes.after? [32] rest
  if name ∈ pairNames then some ⟨name, target, source⟩ else none

def WrittenPair.agrees (pair : WrittenPair) : Bool :=
  (writtenWidth? pair.target).all (fun w => (writtenWidth? pair.source).all (· = w)) &&
    !(isWrittenInMemory pair.target && isWrittenInMemory pair.source)

namespace Bytes

theorem mem_ofInt (member : b ∈ ofInt n) : b = 45 ∨ isDecimal b = true := by
  unfold ofInt at member
  split at member
  · rcases List.mem_append.mp member with sign | digit
    · exact .inl (List.mem_singleton.mp sign)
    · exact .inr (isDecimal_of_mem_ofNat digit)
  · exact .inr (isDecimal_of_mem_ofNat member)

theorem cut?_eq_some (found : cut? mark text = some (front, rest)) :
    text = front ++ mark :: rest := by
  induction text generalizing front with
  | nil => cases found
  | cons first others ih =>
    unfold cut? at found
    split at found
    · rename_i isMark
      cases found
      rw [isMark, List.nil_append]
    · obtain ⟨⟨before, after⟩, there, same⟩ := Option.map_eq_some_iff.mp found
      cases same
      rw [ih there, List.cons_append]

end Bytes

variable {w : Width} {line : Line}

theorem head_of_writtenWidth? (shows : writtenWidth? text = some w) :
    text.head?.any (97 ≤ ·) = true := by
  have pointed (v : Width) (starts : v.pointer.isPrefixOf text = true) : text.head?.any (97 ≤ ·) = true := by
    obtain ⟨rest, rfl⟩ := List.isPrefixOf_iff_prefix.mp starts
    cases v <;> rfl
  have named : ∀ name ∈ byteRegisters ++ wordRegisters, name.head?.any (97 ≤ ·) = true := by decide
  unfold writtenWidth? at shows
  split at shows
  · exact pointed .byte ‹_›
  · split at shows
    · exact pointed .word ‹_›
    · split at shows
      · exact named text (List.mem_append_left _ ‹_›)
      · split at shows
        · exact named text (List.mem_append_right _ ‹_›)
        · cases shows

theorem writtenWidth?_pointer (w : Width) (place : Bytes) : writtenWidth? (w.pointer ++ place) = some w := by
  cases w <;> rfl

namespace Operand

theorem head_ofInt (n : Int) : (Bytes.ofInt n).head?.any (97 ≤ ·) = false := by
  cases starts : (Bytes.ofInt n).head? with
  | none => rfl
  | some b =>
    rcases Bytes.mem_ofInt (List.mem_of_mem_head? starts) with rfl | digit
    · rfl
    · simp only [isDecimal, Bool.and_eq_true, decide_eq_true_eq] at digit
      have nine : b.toNat ≤ 57 := UInt8.le_iff_toNat_le.mp digit.2
      simp [UInt8.le_iff_toNat_le]
      omega

theorem comma_ofInt (n : Int) : 44 ∉ Bytes.ofInt n := by
  intro member
  rcases Bytes.mem_ofInt member with sign | digit
  · cases sign
  · cases digit

theorem comma_displaced (noPlus : 44 ∉ plus) (noMinus : 44 ∉ minus) (n : Int) :
    44 ∉ displaced plus minus n := by
  unfold displaced
  split
  · exact List.not_mem_nil
  · split
    · simp [noMinus, comma_ofInt]
    · simp [noPlus, comma_ofInt]

theorem bracketed (opens : 91 ∈ opening) (noComma : 44 ∉ opening) (plain : 44 ∉ address) :
    91 ∈ opening ++ address ++ utf8 "]" ∧ 44 ∉ opening ++ address ++ utf8 "]" := by
  have last : 44 ∉ utf8 "]" := by decide
  simp [opens, noComma, plain, last]

theorem text_of_isMemory {o : Operand} (memory : o.isMemory = true) :
    ∃ w place, o.width? = some w ∧ o.text = w.pointer ++ place ∧ 91 ∈ place ∧ 44 ∉ place := by
  cases o with
  | none | immediate | register => cases memory
  | frame w offset =>
    have plain := comma_displaced (show 44 ∉ utf8 " + " by decide) (show 44 ∉ utf8 " - " by decide) offset
    exact ⟨w, utf8 "[bp" ++ displaced " + " " - " offset ++ "]", rfl, by simp [text], bracketed (by decide) (by decide) plain⟩
  | data w base displacement =>
    have plain := comma_displaced (show 44 ∉ utf8 "+" by decide) (show 44 ∉ utf8 "-" by decide) displacement
    cases base with
    | bx =>
      exact ⟨w, utf8 "ds:[bx" ++ displaced "+" "-" displacement ++ "]", rfl, by simp only [text, List.append_assoc]; rfl,
        bracketed (by decide) (by decide) plain⟩
    | address value =>
      refine ⟨w, utf8 "ds:[" ++ (Bytes.ofInt value ++ displaced "+" "-" displacement) ++ "]", rfl, by simp [text],
        bracketed (by decide) (by decide) ?_⟩
      simp [comma_ofInt, plain]

theorem isWrittenInMemory_text (o : Operand) : isWrittenInMemory o.text = o.isMemory := by
  cases memory : o.isMemory with
  | true =>
    obtain ⟨w, place, _, shape, opens, _⟩ := text_of_isMemory memory
    simp [isWrittenInMemory, shape, opens]
  | false =>
    cases o with
    | none => rfl
    | immediate value =>
      rw [isWrittenInMemory, text, List.contains_eq_mem, decide_eq_false_iff_not]
      intro member
      rcases Bytes.mem_ofInt member with sign | digit
      · cases sign
      · cases digit
    | frame | data => cases memory
    | register r =>
      cases r with
      | general letter part => cases letter <;> cases part <;> rfl
      | base | stack => rfl

theorem comma_text (o : Operand) : 44 ∉ o.text := by
  by_cases memory : o.isMemory = true
  · obtain ⟨w, place, _, shape, _, noComma⟩ := text_of_isMemory memory
    have pointer : 44 ∉ w.pointer := by cases w <;> decide
    simp [shape, noComma, pointer]
  · cases o with
    | none => exact List.not_mem_nil
    | immediate value => exact comma_ofInt value
    | frame | data => exact absurd rfl memory
    | register r =>
      cases r with
      | general letter part => cases letter <;> cases part <;> decide
      | base | stack => decide

theorem writtenWidth?_text (o : Operand) : writtenWidth? o.text = o.width? := by
  cases memory : o.isMemory with
  | true =>
    obtain ⟨w, place, wide, shape, _⟩ := text_of_isMemory memory
    rw [shape, wide, writtenWidth?_pointer]
  | false =>
    cases o with
    | none => decide
    | immediate value =>
      cases shows : writtenWidth? (immediate value).text with
      | none => rfl
      | some w =>
        have letter := head_of_writtenWidth? shows
        rw [text, head_ofInt] at letter
        cases letter
    | frame | data => cases memory
    | register r =>
      cases r with
      | general letter part => cases letter <;> cases part <;> decide
      | base | stack => decide

end Operand

namespace Instr

theorem unary_eq (name : Bytes) (o : Operand) : unary name o = name ++ 32 :: o.text := by
  simp only [unary, List.append_assoc]
  rfl

theorem binary_eq (name : Bytes) (target source : Operand) :
    binary name target source = name ++ 32 :: (target.text ++ 44 :: 32 :: source.text) := by
  simp only [binary, List.append_assoc]
  rfl

end Instr

def Instr.pair? : Instr → Option (Bytes × Operand × Operand)
  | .mov target source => some ("mov", target, source)
  | .arithmetic op target source => some (op.text, target, source)
  | _ => none

def Item.pair? : Item → Option (Bytes × Operand × Operand)
  | .instr i => i.pair?
  | _ => none

namespace WrittenPair

theorem read?_binary {name : Bytes} (listed : name ∈ pairNames) (target source : Operand) :
    read? (Instr.binary name target source) = some ⟨name, target.text, source.text⟩ := by
  have noSpace : ∀ name ∈ pairNames, 32 ∉ name := by decide
  rw [read?, Instr.binary_eq, Bytes.cut?_append (noSpace name listed)]
  dsimp only [Option.bind_eq_bind, Option.bind_some]
  rw [Bytes.cut?_append target.comma_text]
  simp [Bytes.after?, listed]

theorem read?_other {name : Bytes} (noSpace : 32 ∉ name) (other : name ∉ pairNames) (rest : Bytes) :
    read? (name ++ 32 :: rest) = none := by
  rw [read?, Bytes.cut?_append noSpace]
  cases reads : Bytes.cut? 44 rest with
  | none => simp [reads]
  | some parts => simp [reads, other]

theorem read?_of_head (apart : text.head?.all (fun c => pairNames.all (·.head? ≠ some c)) = true) :
    read? text = none := by
  cases found : Bytes.cut? 32 text with
  | none => simp [read?, found]
  | some parts =>
    obtain ⟨name, rest⟩ := parts
    have shape := Bytes.cut?_eq_some found
    have other : name ∉ pairNames := by
      intro listed
      cases name with
      | nil => exact absurd listed (by decide)
      | cons first others =>
        rw [shape, List.cons_append, List.head?_cons] at apart
        have named := List.all_eq_true.mp apart _ listed
        simp at named
    rw [read?, found]
    cases reads : Bytes.cut? 44 rest with
    | none => simp [reads]
    | some parts => simp [reads, other]

end WrittenPair

def otherNames : List Bytes :=
  conditionalJumps ++ (["jmp", "call", "ret", "shl", "shr", "mul", "div", "inc", "dec", "push", "pop", "push_byte",
    "pop_byte", "pop_bytes"] : List Bytes)

namespace Instr

theorem text_of_other {i : Instr} (sound : i.isSound = true) (single : i.pair? = none) :
    i.text = "ret" ∨ ∃ name ∈ otherNames, ∃ rest, i.text = name ++ 32 :: rest := by
  cases i with
  | mov | arithmetic => cases single
  | shiftLeft target count => exact .inr ⟨"shl", by decide, _, binary_eq _ _ _⟩
  | shiftRight target count => exact .inr ⟨"shr", by decide, _, binary_eq _ _ _⟩
  | mul o => exact .inr ⟨"mul", by decide, _, unary_eq _ _⟩
  | div o => exact .inr ⟨"div", by decide, _, unary_eq _ _⟩
  | inc o => exact .inr ⟨"inc", by decide, _, unary_eq _ _⟩
  | dec o => exact .inr ⟨"dec", by decide, _, unary_eq _ _⟩
  | push o => exact .inr ⟨"push", by decide, _, unary_eq _ _⟩
  | pop o => exact .inr ⟨"pop", by decide, _, unary_eq _ _⟩
  | pushByte o => exact .inr ⟨"push_byte", by decide, _, unary_eq _ _⟩
  | popByte o => exact .inr ⟨"pop_byte", by decide, _, unary_eq _ _⟩
  | popBytes count => exact .inr ⟨"pop_bytes", by decide, _, rfl⟩
  | call name => exact .inr ⟨"call", by decide, _, rfl⟩
  | jump l => exact .inr ⟨"jmp", by decide, _, rfl⟩
  | jumpIf op l =>
    refine .inr ⟨jumpName op, List.mem_append_left _ (of_decide_eq_true sound), l.text, ?_⟩
    simp only [text, List.append_assoc]
    rfl
  | ret bytes =>
    simp only [text]
    split
    · exact .inl rfl
    · exact .inr ⟨"ret", by decide, _, rfl⟩

theorem read?_text {i : Instr} (sound : i.isSound = true) :
    WrittenPair.read? i.text = i.pair?.map fun (name, target, source) => ⟨name, target.text, source.text⟩ := by
  have others : ∀ name ∈ otherNames, 32 ∉ name ∧ name ∉ pairNames := by decide
  cases pair : i.pair? with
  | none =>
    rcases text_of_other sound pair with returns | ⟨name, listed, rest, shape⟩
    · rw [returns]
      decide
    · rw [shape]
      exact WrittenPair.read?_other (others name listed).1 (others name listed).2 rest
  | some parts =>
    cases i with
    | mov target source =>
      cases pair
      exact WrittenPair.read?_binary (by decide) target source
    | arithmetic op target source =>
      cases pair
      exact WrittenPair.read?_binary (by cases op <;> decide) target source
    | shiftLeft | shiftRight | mul | div | inc | dec | push | pop | pushByte | popByte | popBytes | call | jump | jumpIf
    | ret => cases pair

end Instr

theorem Line.read?_text (legible : line.item.isLegible = true) (inside : ∀ name, line.item ≠ .procedure name)
    (own : ∀ text, line.item ≠ .verbatim text) :
    WrittenPair.read? (line.text.dropWhile (· = 32)) =
      line.item.pair?.map fun (name, target, source) => ⟨name, target.text, source.text⟩ := by
  rw [line.unindented legible inside]
  cases item : line.item with
  | instr i =>
    rw [item] at legible
    exact Instr.read?_text legible
  | label l =>
    refine WrittenPair.read?_of_head ?_
    rw [Item.written, l.head_text]
    decide
  | comment text => exact WrittenPair.read?_of_head rfl
  | endProcedure name => exact WrittenPair.read?_of_head rfl
  | procedure name => exact absurd item (inside name)
  | verbatim text => exact absurd item (own text)
  | blank => decide

theorem Item.instr_of_pair? {item : Item} (pair : item.pair? = some parts) :
    ∃ i, item = .instr i ∧ i.pair? = some parts := by
  cases item with
  | instr i => exact ⟨i, rfl, pair⟩
  | label | comment | procedure | endProcedure | verbatim | blank => cases pair

theorem Instr.name_of_pair? {i : Instr} (pair : i.pair? = some (name, target, source)) : name ∈ pairNames := by
  unfold pair? at pair
  split at pair
  · cases pair
    decide
  · rename_i op _ _
    cases pair
    cases op <;> decide
  · cases pair

theorem Instr.pair_agrees {i : Instr} (sound : i.isSound = true) (pair : i.pair? = some (name, target, source)) :
    (WrittenPair.mk name target.text source.text).agrees = true := by
  have fits : target.width?.any (fun w => source.hasWidth w && !(target.isMemory && source.isMemory)) = true := by
    cases i with
    | mov | arithmetic =>
      cases pair
      exact sound
    | shiftLeft | shiftRight | mul | div | inc | dec | push | pop | pushByte | popByte | popBytes | call | jump | jumpIf
    | ret => cases pair
  rw [WrittenPair.agrees, target.writtenWidth?_text, source.writtenWidth?_text, target.isWrittenInMemory_text,
    source.isWrittenInMemory_text]
  cases wide : target.width? with
  | none =>
    rw [wide] at fits
    cases fits
  | some w =>
    rw [wide, Option.any_some, Bool.and_eq_true] at fits
    obtain ⟨held, apart⟩ := fits
    rw [Option.all_some, apart, Bool.and_true]
    cases other : source.width? with
    | none => rfl
    | some v =>
      cases source with
      | none | immediate => cases other
      | frame | data | register => simpa [Operand.hasWidth, other, Operand.kind] using held

namespace Expr

def leavesNothing : Expr → Bool
  | .binary _ op _ _ => op.isComparison
  | .call info _ _ => info.ty = .void
  | _ => false

end Expr

def carrierNames : Width → List Bytes
  | .byte => ["al", "bl", "dl", "ah"]
  | .word => ["ax", "bx", "dx"]

/-- A value of this width is here: a small enough number, memory that says its width, or a register. -/
inductive Operand.Holds (w : Width) : Operand → Prop
  | immediate {n : Nat} (small : n < 2 ^ (8 * w.bytes)) : Holds w (.immediate n)
  | memory {o : Operand} {place : Bytes} (inMemory : o.isMemory = true) (written : o.text = w.pointer ++ place) : Holds w o
  | register {r : Register} (named : r.text ∈ carrierNames w) : Holds w (.register r)

theorem Operand.holds_of_isMemory {o : Operand} (inMemory : o.isMemory = true) (wide : o.width? = some w) :
    o.Holds w := by
  obtain ⟨v, place, same, written, _⟩ := text_of_isMemory inMemory
  cases wide.symm.trans same
  exact .memory inMemory written

theorem Operand.holds_of_fits {o : Operand} (fits : o.fits w = true)
    (small : ∀ n, o = .immediate n → 0 ≤ n ∧ n < Nat.pow 2 (8 * w.bytes)) : o.Holds w := by
  cases o with
  | none => cases fits
  | immediate n =>
    obtain ⟨lower, upper⟩ := small n rfl
    obtain ⟨k, rfl⟩ := Int.eq_ofNat_of_zero_le lower
    exact .immediate (Int.ofNat_lt.mp upper)
  | frame v offset | data v base displacement =>
    cases of_decide_eq_true fits
    exact holds_of_isMemory rfl rfl
  | register r =>
    have named : ∀ carrier ∈ Register.carriers w, carrier.text ∈ carrierNames w := by cases w <;> decide
    exact .register (named r (of_decide_eq_true fits))

theorem Operator.isComparison_of_isArithmetic {op : Operator} (kind : op.isArithmetic = true) : op.isComparison = false := by
  cases op <;> first | rfl | cases kind

theorem Operator.isComparison_of_isShift {op : Operator} (kind : op.isShift = true) : op.isComparison = false := by
  cases op <;> first | rfl | cases kind

namespace Typed

variable {known : Vocabulary} {popped : Bytes → Int} {e : Expr}

theorem holds (lowers : e.Lowers popped) (isValue : e.ty.IsValue) :
    (Lower.expression e).result.Holds (.ofSize e.ty.size) := by
  refine Operand.holds_of_fits (lowers.fits isValue) fun n isNumber => ?_
  cases constant : e.isConstant with
  | false =>
    have varies := lowers.varies constant
    rw [isNumber] at varies
    exact absurd rfl varies
  | true =>
    rw [Lower.expression_of_constant constant] at isNumber
    cases isNumber
    refine ⟨e.ty.wrap_lower e.value, ?_⟩
    have bits : 8 * (Width.ofSize e.ty.size).bytes = e.ty.bits := by
      rcases Lower.size_cases e.ty with one | two
      · rw [Ty.bits, one]
        rfl
      · rw [Ty.bits, two]
        rfl
    rw [bits]
    exact e.ty.wrap_upper e.value

theorem holds_byte (lowers : e.Lowers popped) (isByte : e.ty = .byte) : (Lower.expression e).result.Holds .byte := by
  have isValue : e.ty.IsValue := by
    rw [isByte]
    decide
  have held := holds lowers isValue
  rwa [isByte] at held

theorem holds_word (typed : Typed known e) (lowers : e.Lowers popped) (isWord : e.ty = .int ∨ e.ty.isPointer = true) :
    (Lower.expression e).result.Holds .word := by
  have isValue : e.ty.IsValue := by
    rcases isWord with isInt | pointer
    · rw [isInt]
      decide
    · exact typed.value_of_isPointer pointer
  have two : e.ty.size = 2 := by
    rcases isWord with isInt | pointer
    · rw [isInt]
      rfl
    · exact Ty.size_of_isPointer pointer
  have held := holds lowers isValue
  rwa [two] at held

theorem result_eq_none_iff (typed : Typed known e) (lowers : e.Lowers popped) :
    (Lower.expression e).result = .none ↔ e.leavesNothing = true := by
  have kept (isValue : e.ty.IsValue) (other : e.leavesNothing = false) :
      (Lower.expression e).result = .none ↔ e.leavesNothing = true := by
    have fits := lowers.fits isValue
    constructor
    · intro nothing
      rw [nothing] at fits
      cases fits
    · intro nothing
      rw [other] at nothing
      cases nothing
  have pointed (pointer : e.ty.isPointer = true) := typed.value_of_isPointer pointer
  have written (writable : e.isWritable = true) := typed.value_of_writable writable
  cases typed with
  | literal => exact iff_of_false nofun nofun
  | var | deref | step => exact kept (written rfl) rfl
  | addressOfVar | addressOfDeref => exact kept (pointed (decide_eq_true (Nat.succ_pos _))) rfl
  | cast inner named varies changes legal => exact kept (Ty.isValue_of_canCast inner.named named changes legal).2 rfl
  | @call pos callee given found types inner =>
    by_cases nothing : callee.returns = .void
    · have result : (Lower.expression (.call { pos, ty := callee.returns, usesRegisters := true } callee.name given)).result =
          Lower.callResult callee.returns := rfl
      refine iff_of_true ?_ (decide_eq_true nothing)
      rw [result, nothing]
      rfl
    · exact kept ⟨known.returns_named found, nothing⟩ (decide_eq_false nothing)
  | assign left right writable same => exact kept (left.value_of_writable writable) rfl
  | arithmetic left right kind number same varies =>
    exact kept (Ty.isValue_of_isArithmetic number) (Operator.isComparison_of_isArithmetic kind)
  | pointer left right kind pointer offset varies =>
    exact kept (pointed pointer) (Operator.isComparison_of_isArithmetic (Operator.isArithmetic_of_isAdditive kind))
  | shift left right kind number count varies fixed =>
    exact kept (Ty.isValue_of_isArithmetic number) (Operator.isComparison_of_isShift kind)
  | comparison left right kind listed number same varies =>
    rw [Lower.expression_operation, Lower.binary_of_isComparison kind]
    exact iff_of_true rfl kind

end Typed

structure Program.KeepsWidths (program : Program) (settings : Settings) : Prop where
  held : ∀ f ∈ program.functions, ∀ body, f.body = some body → ∀ e, (Node.stmt body).Contains (.expr e) →
    (e.ty = .byte → (Lower.expression e).result.Holds .byte) ∧
      (e.ty = .int ∨ e.ty.isPointer = true → (Lower.expression e).result.Holds .word) ∧
      ((Lower.expression e).result = .none ↔ e.leavesNothing = true)
  read : ∀ line ∈ (program.generate settings).lines, ∀ name target source,
    line.item.pair? = some (name, target, source) → name ∈ pairNames ∧
      WrittenPair.read? (line.text.dropWhile (· = 32)) = some ⟨name, target.text, source.text⟩
  agree : ∀ line ∈ (program.generate settings).lines, (∀ f, line.item ≠ .procedure f) → ∀ pair,
    WrittenPair.read? (line.text.dropWhile (· = 32)) = some pair → pair.agrees = true

theorem Lower.header_agrees (member : line ∈ Lower.header.lines)
    (reads : WrittenPair.read? (line.text.dropWhile (· = 32)) = some pair) : pair.agrees = true := by
  have agreed : Lower.header.lines.all (fun line =>
      (WrittenPair.read? (line.text.dropWhile (· = 32))).all WrittenPair.agrees) = true := by decide +kernel
  have agrees := List.all_eq_true.mp agreed line member
  rwa [reads] at agrees

theorem Line.agrees_of_read (legible : line.item.isLegible = true) (opens : ∀ f, line.item ≠ .procedure f)
    (own : ∀ text, line.item ≠ .verbatim text) (reads : WrittenPair.read? (line.text.dropWhile (· = 32)) = some pair) :
    pair.agrees = true := by
  rw [Line.read?_text legible opens own, Option.map_eq_some_iff] at reads
  obtain ⟨⟨name, target, source⟩, operands, rfl⟩ := reads
  obtain ⟨i, isInstr, operands⟩ := Item.instr_of_pair? operands
  rw [isInstr] at legible
  exact Instr.pair_agrees legible operands

/-- In an accepted source without inline assembly, linked or not, every expression leaves an operand of the width of its
type, and the two operands of each printed instruction have the same width. -/
theorem operands_keep_widths {env : Env} {program : Program} {settings : Settings}
    (parsed : (parse env).program = .ok program) (noAssembly : program.hasAssembly = false) :
    program.KeepsWidths settings := by
  have isTable := parse_isTable parsed
  have legible : ∀ line ∈ (program.generate settings).lines, line.item.isLegible = true :=
    Program.generate_legible isTable noAssembly
  refine ⟨fun f member body implemented e inside => ?_, fun line member name target source pair => ?_,
    fun line member opens pair reads => ?_⟩
  · obtain ⟨_, frame, _, _, keeps, accepts⟩ := isTable.accepted f member body implemented
    obtain ⟨scope, _, typed⟩ := accepts.contains .nil (by simp) inside
    have lowers : e.Lowers program.popped := typed.lowers fun callee found => by
      obtain ⟨g, known, rfl⟩ := found
      exact program.popped_of_keeps isTable keeps known
    exact ⟨Typed.holds_byte lowers, typed.holds_word lowers, typed.result_eq_none_iff lowers⟩
  · obtain ⟨i, isInstr, operands⟩ := Item.instr_of_pair? pair
    refine ⟨Instr.name_of_pair? operands, ?_⟩
    rw [Line.read?_text (legible line member) (by simp [isInstr]) (by simp [isInstr]), pair]
    rfl
  · rcases Program.generate_cases isTable (fun has => noAssembly.symm.trans has) member with isHeader | rfl | ⟨f, kind⟩
    · exact Lower.header_agrees isHeader reads
    · have other : WrittenPair.read? ((⟨0, .verbatim "END program"⟩ : Line).text.dropWhile (· = 32)) = none := by decide
      rw [other] at reads
      cases reads
    · have own (text : Bytes) : line.item ≠ .verbatim text := by
        intro isVerbatim
        rw [isVerbatim] at kind
        rcases kind with orderly | isOpening | isClosing | isBlank
        · cases orderly
        · cases isOpening
        · cases isClosing
        · cases isBlank
      exact Line.agrees_of_read (legible line member) opens own reads

def widths : Env where
  source :=
    { lines := #["void main() \x7b byte b = 7; int n = b + 300; int* p = &n; if (b < 9) \x7b *(p + 1) = n ^ b; b = b - 1; \x7d \x7d"]
      origins := #["widths.cb"] }
  settings := {}

def usedNames (lines : List Line) : List Bytes :=
  lines.filterMap fun line => (WrittenPair.read? (line.text.dropWhile (· = 32))).map (·.name)

theorem operands_keep_widths_widths :
    ∃ program, (parse widths).program = .ok program ∧ program.hasAssembly = false ∧
      ([utf8 "mov", utf8 "add", utf8 "sub", utf8 "xor", utf8 "cmp"] ⊆ usedNames (program.generate widths.settings).lines) ∧
      program.KeepsWidths widths.settings := by
  have accepted : (parse widths).program.toOption.any (fun program =>
      !program.hasAssembly &&
        [utf8 "mov", utf8 "add", utf8 "sub", utf8 "xor", utf8 "cmp"] ⊆ usedNames (program.generate widths.settings).lines) =
          true := by decide +kernel
  obtain ⟨program, parsed, holds⟩ := exists_of_any accepted
  simp only [Bool.and_eq_true, Bool.not_eq_true', decide_eq_true_eq] at holds
  exact ⟨program, parsed, holds.1, holds.2, operands_keep_widths parsed holds.1⟩

end Cb
