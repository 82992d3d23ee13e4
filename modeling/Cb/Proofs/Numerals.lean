import Cb.Proofs.LineTexts

/-! The numbers that the text of an instruction shows are those of its operands. -/

namespace Cb

namespace Bytes

def numerals (text : Bytes) : List Nat := ((text.splitOnP (!isDecimal ·)).filter (· ≠ [])).map decimalOf

def isPlain (text : Bytes) : Bool := text.all (!isDecimal ·)

@[simp] theorem numerals_nil : numerals [] = [] := rfl

theorem numerals_mark (plain : isDecimal mark = false) (front rest : Bytes) :
    numerals (front ++ mark :: rest) = numerals front ++ numerals rest := by
  rw [numerals, List.splitOnP_append_cons front rest (by simp [plain]), List.filter_append, List.map_append]
  rfl

theorem numerals_isPlain_append (plain : front.isPlain = true) (rest : Bytes) :
    numerals (front ++ rest) = numerals rest := by
  induction front with
  | nil => rfl
  | cons mark more ih =>
    simp only [isPlain, List.all_cons, Bool.and_eq_true, Bool.not_eq_true'] at plain
    have shown := numerals_mark plain.1 [] (more ++ rest)
    rw [List.nil_append, numerals_nil, List.nil_append] at shown
    rw [List.cons_append, shown, ih plain.2]

theorem numerals_between (front : Bytes) {middle : Bytes} (plain : middle.isPlain = true) (nonempty : middle ≠ [])
    (rest : Bytes) : numerals (front ++ (middle ++ rest)) = numerals front ++ numerals rest := by
  cases middle with
  | nil => exact absurd rfl nonempty
  | cons mark more =>
    simp only [isPlain, List.all_cons, Bool.and_eq_true, Bool.not_eq_true'] at plain
    rw [List.cons_append, numerals_mark plain.1, numerals_isPlain_append plain.2]

theorem numerals_append_isPlain (front : Bytes) (plain : rest.isPlain = true) :
    numerals (front ++ rest) = numerals front := by
  by_cases nonempty : rest = []
  · rw [nonempty, List.append_nil]
  · have apart := numerals_between front plain nonempty []
    rwa [List.append_nil, numerals_nil, List.append_nil] at apart

theorem numerals_ofNat (n : Nat) : numerals (ofNat n) = [n] := by
  have single : (ofNat n).splitOnP (!isDecimal ·) = [ofNat n] :=
    List.splitOnP_eq_singleton fun b member => by simp [isDecimal_of_mem_ofNat member]
  have nonempty : ofNat n ≠ [] := by simp [ofNat]
  simp [numerals, single, nonempty, decimalOf_ofNat]

theorem numerals_ofInt (n : Int) : numerals (ofInt n) = [n.natAbs] := by
  rw [ofInt]
  split
  · rw [numerals_isPlain_append (by decide), numerals_ofNat]
  · exact numerals_ofNat _

end Bytes

namespace Operand

def shown (n : Int) : List Nat := if n = 0 then [] else [n.natAbs]

def numbers : Operand → List Nat
  | .immediate value => [value.natAbs]
  | .frame _ offset => shown offset
  | .data _ .bx displacement => shown displacement
  | .data _ (.address value) displacement => value.natAbs :: shown displacement
  | .none | .register _ => []

theorem numerals_displaced (front : Bytes) {plus minus : Bytes} (plainPlus : plus.isPlain = true) (hasPlus : plus ≠ [])
    (plainMinus : minus.isPlain = true) (hasMinus : minus ≠ []) (n : Int) :
    (front ++ displaced plus minus n).numerals = front.numerals ++ shown n := by
  rw [displaced, shown]
  split
  · rw [List.append_nil, List.append_nil]
  · split
    · rw [Bytes.numerals_between front plainMinus hasMinus, Bytes.numerals_ofInt, Int.natAbs_neg]
    · rw [Bytes.numerals_between front plainPlus hasPlus, Bytes.numerals_ofInt]

theorem numerals_text (o : Operand) : o.text.numerals = o.numbers := by
  have pointer (w : Width) : w.pointer.isPlain = true := by cases w <;> decide
  cases o with
  | none => rfl
  | immediate value => exact Bytes.numerals_ofInt value
  | frame w offset =>
    rw [text, Bytes.numerals_append_isPlain _ (by decide),
      numerals_displaced _ (by decide) (by decide) (by decide) (by decide),
      Bytes.numerals_isPlain_append (pointer w)]
    rfl
  | data w base displacement =>
    simp only [text]
    rw [Bytes.numerals_append_isPlain _ (by decide),
      numerals_displaced _ (by decide) (by decide) (by decide) (by decide), List.append_assoc,
      Bytes.numerals_isPlain_append (pointer w), Bytes.numerals_isPlain_append (by decide)]
    cases base with
    | bx => rfl
    | address value =>
      rw [Bytes.numerals_ofInt]
      rfl
  | register r =>
    cases r with
    | general letter part => cases letter <;> cases part <;> decide
    | base | stack => decide

end Operand

namespace Instr

def namesSymbol : Instr → Bool
  | .call _ | .jump _ | .jumpIf _ _ => true
  | _ => false

theorem numerals_unary (plain : name.isPlain = true) (operand : Operand) :
    (unary name operand).numerals = operand.numbers := by
  rw [unary, List.append_assoc, Bytes.numerals_isPlain_append plain, Bytes.numerals_isPlain_append (by decide),
    operand.numerals_text]

theorem numerals_binary (plain : name.isPlain = true) (target source : Operand) :
    (binary name target source).numerals = target.numbers ++ source.numbers := by
  have parts : binary name target source = unary name target ++ (", " ++ source.text) := by
    simp only [binary, unary, List.append_assoc]
  rw [parts, Bytes.numerals_between _ (by decide) (by decide), numerals_unary plain, source.numerals_text]

theorem numerals_text {i : Instr} (plain : i.namesSymbol = false) : i.text.numerals = i.operands.flatMap Operand.numbers := by
  have one (operand : Operand) : [operand].flatMap Operand.numbers = operand.numbers := by simp
  have two (target source : Operand) :
      [target, source].flatMap Operand.numbers = target.numbers ++ source.numbers := by simp
  cases i with
  | mov | shiftLeft | shiftRight => exact (numerals_binary (by decide) _ _).trans (two _ _).symm
  | arithmetic op target source =>
    have name : op.text.isPlain = true := by cases op <;> decide
    exact (numerals_binary name target source).trans (two _ _).symm
  | mul | div | inc | dec | push | pop | pushByte | popByte => exact (numerals_unary (by decide) _).trans (one _).symm
  | popBytes count =>
    rw [text, Bytes.numerals_isPlain_append (by decide), Bytes.numerals_ofInt]
    rfl
  | ret bytes =>
    rw [text, operands]
    split
    · decide
    · rw [Bytes.numerals_isPlain_append (by decide), Bytes.numerals_ofNat]
      rfl
  | call | jump | jumpIf => cases plain

end Instr

end Cb
