import Cb.Proofs.OperandWidths
import Cb.Proofs.StackFlow
import Cb.Proofs.Texts

/-! What the text of a line tells: the label that it defines, and the label that it jumps to. -/

namespace Cb

namespace Bytes

def startsApart (text : Bytes) : Bool := text.head?.any (· ∉ ([32, 106, 108] : Bytes))

theorem startsApart_append (apart : front.startsApart = true) (rest : Bytes) :
    Bytes.startsApart (front ++ rest) = true := by
  cases front with
  | nil => cases apart
  | cons first others => exact apart

theorem unindented {text : Bytes} (starts : text.head? ≠ some 32) (n : Nat) :
    (spaces n ++ text).dropWhile (· = 32) = text := by
  induction n with
  | zero =>
    cases text with
    | nil => rfl
    | cons first rest =>
      have different : first ≠ 32 := fun same => starts (congrArg some same)
      simp [spaces, different]
  | succ n ih => simpa [spaces, List.replicate_succ] using ih

end Bytes

theorem LabelRole.text_inj {a b : LabelRole} (same : a.text = b.text) : a = b := by
  revert same
  cases a <;> cases b <;> decide

theorem Label.text_inj {a b : Label} (same : a.text = b.text) : a = b := by
  -- Digits hold no underscore, so the number of a label ends at the first one after the stem.
  have unmarked (l : Label) : (95 : UInt8) ∉ Bytes.ofNat l.number := by
    intro member
    cases Bytes.isDecimal_of_mem_ofNat member
  have parts (l : Label) : Bytes.cut? 95 (l.text.drop 6) = some (Bytes.ofNat l.number, l.role.text) := by
    have shape : l.text = (utf8 "label_") ++ (Bytes.ofNat l.number ++ 95 :: l.role.text) := by
      simp only [Label.text, List.append_assoc]
      rfl
    rw [shape]
    exact Bytes.cut?_append (unmarked l) l.role.text
  have equal := (parts a).symm.trans ((congrArg (fun text => Bytes.cut? 95 (text.drop 6)) same).trans (parts b))
  simp only [Option.some.injEq, Prod.mk.injEq] at equal
  have number : a.number = b.number := by
    rw [← Bytes.decimalOf_ofNat a.number, equal.1, Bytes.decimalOf_ofNat]
  obtain ⟨n, role⟩ := a
  obtain ⟨m, other⟩ := b
  exact Label.mk.injEq .. ▸ ⟨number, LabelRole.text_inj equal.2⟩

def jumpNames : List Bytes := "jmp" :: conditionalJumps

namespace Instr

theorem binary_startsApart (apart : name.startsApart = true) (target source : Operand) :
    (binary name target source).startsApart = true := by
  simp only [binary, List.append_assoc]
  exact Bytes.startsApart_append apart _

theorem unary_startsApart (apart : name.startsApart = true) (operand : Operand) :
    (unary name operand).startsApart = true := by
  simp only [unary, List.append_assoc]
  exact Bytes.startsApart_append apart _

theorem text_startsApart (stays : (Item.instr i).target? = none) : i.text.startsApart = true := by
  cases i with
  | mov target source | shiftLeft target source | shiftRight target source => exact binary_startsApart (by decide) target source
  | arithmetic op target source => exact binary_startsApart (by cases op <;> decide) target source
  | mul operand | div operand | inc operand | dec operand | push operand | pop operand | pushByte operand
  | popByte operand => exact unary_startsApart (by decide) operand
  | popBytes | call => exact Bytes.startsApart_append (by decide) _
  | ret bytes =>
    simp only [text]
    split
    · decide
    · exact Bytes.startsApart_append (by decide) _
  | jump | jumpIf => cases stays

theorem text_of_jump (sound : i.isSound = true) (jumps : (Item.instr i).target? = some l) :
    ∃ name ∈ jumpNames, i.text = name ++ 32 :: l.text := by
  cases i with
  | jump target =>
    cases jumps
    exact ⟨"jmp", by decide, rfl⟩
  | jumpIf op target =>
    cases jumps
    refine ⟨_, List.mem_cons_of_mem _ (of_decide_eq_true sound), ?_⟩
    simp only [text, List.append_assoc]
    rfl
  | mov | arithmetic | shiftLeft | shiftRight | mul | div | inc | dec | push | pop | pushByte | popByte | popBytes | call
  | ret => cases jumps

end Instr

namespace Item

def written : Item → Bytes
  | .instr i => i.text
  | .label l => l.text ++ ":"
  | .comment text => "; " ++ text
  | .procedure name => name ++ " proc"
  | .endProcedure name => "endp " ++ name
  | .verbatim text => text
  | .blank => []

def isLegible : Item → Bool
  | .instr i => i.isSound
  | .verbatim text => text.startsApart
  | _ => true

theorem written_cases {item : Item} (legible : item.isLegible = true) (inside : ∀ name, item ≠ .procedure name) :
    item = .blank ∨ item.written.startsApart = true ∨ (∃ l, item = .label l) ∨
      ∃ l, item.target? = some l ∧ ∃ name ∈ jumpNames, item.written = name ++ 32 :: l.text := by
  cases item with
  | instr i =>
    cases target : (Item.instr i).target? with
    | none => exact .inr (.inl (Instr.text_startsApart target))
    | some l => exact .inr (.inr (.inr ⟨l, rfl, Instr.text_of_jump legible target⟩))
  | label l => exact .inr (.inr (.inl ⟨l, rfl⟩))
  | comment | endProcedure => exact .inr (.inl (Bytes.startsApart_append (by decide) _))
  | verbatim text => exact .inr (.inl legible)
  | procedure name => exact absurd rfl (inside name)
  | blank => exact .inl rfl

end Item

theorem jumpNames_start : ∀ name ∈ jumpNames, name.head? = some 106 ∧ 32 ∉ name := by decide

theorem Label.head_text (l : Label) (rest : Bytes) : (l.text ++ rest).head? = some 108 := rfl

namespace Bytes

theorem head?_of_jump (isJump : name ∈ jumpNames) (rest : Bytes) : (name ++ rest).head? = some 106 := by
  rw [List.head?_append, (jumpNames_start name isJump).1]
  rfl

theorem head?_of_startsApart {text : Bytes} (apart : text.startsApart = true) :
    text.head? ≠ some 32 ∧ text.head? ≠ some 106 ∧ text.head? ≠ some 108 := by
  refine ⟨?_, ?_, ?_⟩
  all_goals
    intro starts
    rw [startsApart, starts] at apart
    cases apart

end Bytes

def Label.isDefinedBy (l : Label) (text : Bytes) : Bool := text.dropWhile (· = 32) = l.text ++ ":"

namespace Line

variable {line : Line}

theorem text_eq (line : Line) :
    line.text = Bytes.spaces (if line.item = .blank then 0 else 4 * line.indent) ++ line.item.written := by
  obtain ⟨indent, item⟩ := line
  cases item <;> rfl

theorem unindented (legible : line.item.isLegible = true) (inside : ∀ name, line.item ≠ .procedure name) :
    line.text.dropWhile (· = 32) = line.item.written := by
  rw [text_eq]
  refine Bytes.unindented ?_ _
  rcases Item.written_cases legible inside with isBlank | apart | ⟨l, isLabel⟩ | ⟨l, _, name, isJump, shape⟩
  · simp [isBlank, Item.written]
  · exact (Bytes.head?_of_startsApart apart).1
  · rw [isLabel, Item.written, l.head_text]
    decide
  · rw [shape, Bytes.head?_of_jump isJump]
    decide

theorem isDefinedBy_text_iff (legible : line.item.isLegible = true) (l : Label) :
    l.isDefinedBy line.text = true ↔ line.item = .label l := by
  simp only [Label.isDefinedBy, decide_eq_true_eq]
  constructor
  · intro reads
    by_cases opens : ∃ name, line.item = .procedure name
    · -- Such a line ends with the last letter of its keyword.
      obtain ⟨name, isProcedure⟩ := opens
      obtain ⟨indentation, whole⟩ := List.dropWhile_suffix (l := line.text) (· = 32)
      rw [reads, text_eq, isProcedure, Item.written] at whole
      have last := congrArg List.getLast? whole
      simp only [← List.append_assoc, List.getLast?_append] at last
      cases last
    · have inside := not_exists.mp opens
      rw [unindented legible inside] at reads
      have starts : line.item.written.head? = some 108 := reads ▸ l.head_text _
      rcases Item.written_cases legible inside with isBlank | apart | ⟨other, isLabel⟩ | ⟨_, _, name, isJump, shape⟩
      · rw [isBlank] at starts
        cases starts
      · exact absurd starts (Bytes.head?_of_startsApart apart).2.2
      · rw [isLabel, Item.written, List.append_cancel_right_eq] at reads
        rw [isLabel, Label.text_inj reads]
      · rw [shape, Bytes.head?_of_jump isJump] at starts
        cases starts
  · intro isLabel
    rw [unindented legible fun name => by simp [isLabel], isLabel]
    rfl

theorem text_of_target? (legible : line.item.isLegible = true) (jumps : line.item.target? = some l) :
    ∃ name ∈ jumpNames, line.text.dropWhile (· = 32) = name ++ 32 :: l.text := by
  have inside (name : Bytes) : line.item ≠ .procedure name := by
    intro isProcedure
    rw [isProcedure] at jumps
    cases jumps
  rw [unindented legible inside]
  cases item : line.item with
  | instr i =>
    rw [item] at legible jumps
    exact Instr.text_of_jump legible jumps
  | label | comment | procedure | endProcedure | verbatim | blank =>
    rw [item] at jumps
    cases jumps

theorem target?_of_text (legible : line.item.isLegible = true) (inside : ∀ name, line.item ≠ .procedure name)
    (isJump : name ∈ jumpNames) (reads : line.text.dropWhile (· = 32) = name ++ 32 :: operand) :
    ∃ l : Label, line.item.target? = some l ∧ operand = l.text := by
  rw [unindented legible inside] at reads
  have starts : line.item.written.head? = some 106 := reads ▸ Bytes.head?_of_jump isJump _
  rcases Item.written_cases legible inside with isBlank | apart | ⟨l, isLabel⟩ | ⟨l, target, other, named, shape⟩
  · rw [isBlank] at starts
    cases starts
  · exact absurd starts (Bytes.head?_of_startsApart apart).2.1
  · rw [isLabel, Item.written, l.head_text] at starts
    cases starts
  · refine ⟨l, target, ?_⟩
    have same := congrArg (Bytes.cut? 32) (reads.symm.trans shape)
    rw [Bytes.cut?_append (jumpNames_start name isJump).2, Bytes.cut?_append (jumpNames_start other named).2] at same
    exact (Prod.mk.inj (Option.some.inj same)).2

end Line

end Cb
