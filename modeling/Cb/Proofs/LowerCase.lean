import Cb.Text.LowerCase
import Mathlib.Data.Bool.Basic

/-! Putting a text into lower case twice changes no more than doing it once, and it makes no difference whether the
letters of ASCII were in lower case before. -/

namespace Cb

def IsScalar (code : Nat) : Prop := code ≤ 0x10FFFF ∧ ¬(0xD800 ≤ code ∧ code ≤ 0xDFFF)

theorem toNat_toUInt8 (small : n < 256) : n.toUInt8.toNat = n := by
  simp only [Nat.toUInt8, UInt8.toNat_ofNat']
  omega

namespace Scalar

variable {a b c d : UInt8} (rest : Bytes)

theorem not_ascii (above : 0x80 ≤ a.toNat) : ¬a < 0x80 := by
  simp only [UInt8.lt_iff_toNat_lt, UInt8.reduceToNat]
  omega

theorem leading?_one (ascii : a.toNat < 0x80) : leading? (a :: rest) = some ⟨a.toNat, [a]⟩ :=
  if_pos (UInt8.lt_iff_toNat_lt.mpr ascii)

variable {found : Scalar}

theorem leading?_two (above : 0x80 ≤ a.toNat) (read : two? a b = some found) :
    leading? (a :: b :: rest) = some found := by
  rcases rest with _ | ⟨c, _ | ⟨d, rest⟩⟩ <;> simp [leading?, not_ascii above, read]

theorem leading?_three (above : 0x80 ≤ a.toNat) (short : two? a b = none) (read : three? a b c = some found) :
    leading? (a :: b :: c :: rest) = some found := by
  rcases rest with _ | ⟨d, rest⟩ <;> simp [leading?, not_ascii above, short, read]

theorem leading?_four (above : 0x80 ≤ a.toNat) (short : two? a b = none) (middle : three? a b c = none)
    (read : four? a b c d = some found) : leading? (a :: b :: c :: d :: rest) = some found := by
  simp [leading?, not_ascii above, short, middle, read]

theorem leading?_encode {code : Nat} (isScalar : IsScalar code) :
    leading? (encode code ++ rest) = some ⟨code, encode code⟩ := by
  obtain ⟨bound, noSurrogate⟩ := isScalar
  have tail (n : Nat) : (0x80 + n % 64).toUInt8.toNat = 0x80 + n % 64 := toNat_toUInt8 (by omega)
  simp only [encode]
  split
  · rename_i ascii
    have same := toNat_toUInt8 (show code < 256 by omega)
    rw [List.cons_append, leading?_one _ (by omega), same]
  · split
    · have first := toNat_toUInt8 (show 0xC0 + code / 64 < 256 by omega)
      refine leading?_two _ (by omega) ?_
      simp only [two?, continues, low, UInt8.le_iff_toNat_le, first, tail, UInt8.reduceToNat]
      rw [if_pos (by simp; omega)]
      simp
      omega
    · rw [if_neg (by simp; omega)]
      split
      · have first := toNat_toUInt8 (show 0xE0 + code / 4096 < 256 by omega)
        refine leading?_three _ (by omega) ?_ ?_
        · simp only [two?, continues, low, UInt8.le_iff_toNat_le, first, tail, UInt8.reduceToNat]
          rw [if_neg (by simp; omega)]
        · simp only [three?, continues, low, UInt8.le_iff_toNat_le, first, tail, UInt8.reduceToNat]
          rw [if_pos (by simp; omega)]
          simp
          omega
      · have first := toNat_toUInt8 (show 0xF0 + code / 262144 < 256 by omega)
        refine leading?_four _ (by omega) ?_ ?_ ?_
        · simp only [two?, continues, low, UInt8.le_iff_toNat_le, first, tail, UInt8.reduceToNat]
          rw [if_neg (by simp; omega)]
        · simp only [three?, continues, low, UInt8.le_iff_toNat_le, first, tail, UInt8.reduceToNat]
          rw [if_neg (by simp; omega)]
        · simp only [four?, continues, low, UInt8.le_iff_toNat_le, first, tail, UInt8.reduceToNat]
          rw [if_pos (by simp; omega)]
          simp
          omega

structure Opens (unit : Scalar) (text : Bytes) : Prop where
  isScalar : IsScalar unit.code
  bytes : unit.bytes = encode unit.code
  starts : unit.bytes <+: text

theorem opens_two? (rest : Bytes) (read : two? a b = some found) : found.Opens (a :: b :: rest) := by
  unfold two? continues low at read
  rw [Option.ite_none_right_eq_some] at read
  obtain ⟨fits, ⟨⟩⟩ := read
  simp only [Bool.and_eq_true, decide_eq_true_eq, UInt8.le_iff_toNat_le, UInt8.reduceToNat] at fits
  refine ⟨by constructor <;> dsimp only <;> omega, ?_, rest, rfl⟩
  have first : (0xC0 + (a.toNat % 32 * 64 + b.toNat % 64) / 64).toUInt8 = a :=
    UInt8.toNat_inj.mp (by rw [toNat_toUInt8] <;> omega)
  have second : (0x80 + (a.toNat % 32 * 64 + b.toNat % 64) / 1 % 64).toUInt8 = b :=
    UInt8.toNat_inj.mp (by rw [toNat_toUInt8] <;> omega)
  simp only [encode]
  rw [if_neg (by omega), if_pos (by omega), first, second]

theorem opens_three? (rest : Bytes) (read : three? a b c = some found) : found.Opens (a :: b :: c :: rest) := by
  unfold three? continues low at read
  rw [Option.ite_none_right_eq_some] at read
  obtain ⟨fits, ⟨⟩⟩ := read
  simp only [Bool.and_eq_true, Bool.not_eq_true', Bool.and_eq_false_iff, decide_eq_true_eq, decide_eq_false_iff_not,
    UInt8.le_iff_toNat_le, UInt8.reduceToNat] at fits
  refine ⟨by constructor <;> dsimp only <;> omega, ?_, rest, rfl⟩
  dsimp only
  generalize value : a.toNat % 16 * 4096 + b.toNat % 64 * 64 + c.toNat % 64 = code at fits
  have first : (0xE0 + code / 4096).toUInt8 = a := UInt8.toNat_inj.mp (by rw [toNat_toUInt8] <;> omega)
  have second : (0x80 + code / 64 % 64).toUInt8 = b := UInt8.toNat_inj.mp (by rw [toNat_toUInt8] <;> omega)
  have third : (0x80 + code / 1 % 64).toUInt8 = c := UInt8.toNat_inj.mp (by rw [toNat_toUInt8] <;> omega)
  simp only [encode]
  rw [if_neg (by omega), if_neg (by omega), if_neg (by simp; omega), if_pos (by omega), first, second, third]

theorem opens_four? (rest : Bytes) (read : four? a b c d = some found) : found.Opens (a :: b :: c :: d :: rest) := by
  unfold four? continues low at read
  rw [Option.ite_none_right_eq_some] at read
  obtain ⟨fits, ⟨⟩⟩ := read
  simp only [Bool.and_eq_true, decide_eq_true_eq, UInt8.le_iff_toNat_le, UInt8.reduceToNat] at fits
  refine ⟨by constructor <;> dsimp only <;> omega, ?_, rest, rfl⟩
  dsimp only
  generalize value : a.toNat % 8 * 262144 + b.toNat % 64 * 4096 + c.toNat % 64 * 64 + d.toNat % 64 = code at fits
  have quotient : code / 262144 = a.toNat % 8 := by omega
  have first : (0xF0 + code / 262144).toUInt8 = a := UInt8.toNat_inj.mp (by rw [quotient, toNat_toUInt8] <;> omega)
  have second : (0x80 + code / 4096 % 64).toUInt8 = b := UInt8.toNat_inj.mp (by rw [toNat_toUInt8] <;> omega)
  have third : (0x80 + code / 64 % 64).toUInt8 = c := UInt8.toNat_inj.mp (by rw [toNat_toUInt8] <;> omega)
  have fourth : (0x80 + code / 1 % 64).toUInt8 = d := UInt8.toNat_inj.mp (by rw [toNat_toUInt8] <;> omega)
  simp only [encode]
  rw [if_neg (by omega), if_neg (by omega), if_neg (by simp; omega), if_neg (by omega), first, second, third, fourth]

theorem eq_some_of_orElse (read : (first <|> second) = some found) :
    first = some found ∨ second = some found := by
  cases first with
  | none => exact .inr read
  | some other => exact .inl read

theorem opens_of_leading? (read : leading? text = some found) : found.Opens text := by
  cases text with
  | nil => cases read
  | cons a rest =>
    simp only [leading?] at read
    split at read
    · next ascii =>
      cases read
      have small : a.toNat < 0x80 := UInt8.lt_iff_toNat_lt.mp ascii
      have same : a.toNat.toUInt8 = a := UInt8.toNat_inj.mp (toNat_toUInt8 (by omega))
      refine ⟨by constructor <;> dsimp only <;> omega, ?_, rest, rfl⟩
      simp only [encode]
      rw [if_pos small, same]
    · split at read
      · rcases eq_some_of_orElse read with short | longer
        · exact opens_two? _ short
        · rcases eq_some_of_orElse longer with middle | long
          · exact opens_three? _ middle
          · exact opens_four? _ long
      · rcases eq_some_of_orElse read with short | middle
        · exact opens_two? _ short
        · exact opens_three? _ middle
      · exact opens_two? _ read
      · cases read

def IsUnit (unit : Scalar) : Prop :=
  (IsScalar unit.code ∧ unit.bytes = encode unit.code) ∨
    (unit.code = replacement ∧ ∃ byte : UInt8, 0x80 ≤ byte.toNat ∧ unit.bytes = [byte])

end Scalar

theorem encode_ne_nil (code : Nat) : encode code ≠ [] := by
  simp only [encode]
  repeat' split
  all_goals exact List.cons_ne_nil _ _

theorem scalarsFrom_encode {codes : List Nat} (valid : ∀ code ∈ codes, IsScalar code)
    (enough : (codes.flatMap encode).length ≤ count) :
    scalarsFrom count (codes.flatMap encode) = codes.map fun code => ⟨code, encode code⟩ := by
  induction codes generalizing count with
  | nil => cases count <;> rfl
  | cons code rest ih =>
    obtain ⟨first, others, shape⟩ := List.exists_cons_of_ne_nil (encode_ne_nil code)
    have read := Scalar.leading?_encode (rest.flatMap encode) (valid code (by simp))
    rw [List.flatMap_cons, List.length_append, shape, List.length_cons] at enough
    obtain ⟨smaller, rfl⟩ : ∃ smaller, count = smaller + 1 := ⟨count - 1, by omega⟩
    rw [List.flatMap_cons, shape, List.cons_append, scalarsFrom]
    rw [shape, List.cons_append] at read
    rw [read]
    dsimp only
    rw [← List.cons_append, ← shape, List.drop_left, ih (fun other member => valid other (by simp [member])) (by omega)]
    rfl

theorem codePoints_encode {codes : List Nat} (valid : ∀ code ∈ codes, IsScalar code) :
    codePoints (codes.flatMap encode) = codes := by
  rw [codePoints, scalars, scalarsFrom_encode valid (Nat.le_refl _), List.map_map]
  exact List.map_id codes

theorem scalarsFrom_units (enough : text.length ≤ count) :
    (scalarsFrom count text).flatMap (·.bytes) = text ∧ ∀ unit ∈ scalarsFrom count text, unit.IsUnit := by
  induction count generalizing text with
  | zero =>
    obtain rfl : text = [] := by simpa using enough
    exact ⟨rfl, nofun⟩
  | succ count ih =>
    cases text with
    | nil => exact ⟨rfl, nofun⟩
    | cons a rest =>
      rw [scalarsFrom]
      split
      · next found read =>
        obtain ⟨isScalar, bytes, others, whole⟩ := Scalar.opens_of_leading? read
        have nonempty := encode_ne_nil found.code
        rw [← bytes] at nonempty
        have shorter : others.length ≤ count := by
          have lengths := congrArg List.length whole
          have positive := List.length_pos_iff.mpr nonempty
          simp only [List.length_append, List.length_cons] at lengths enough
          omega
        rw [← whole, List.drop_left]
        obtain ⟨joined, units⟩ := ih shorter
        exact ⟨by rw [List.flatMap_cons, joined],
          List.forall_mem_cons.mpr ⟨Or.inl ⟨isScalar, bytes⟩, units⟩⟩
      · next unread =>
        obtain ⟨joined, units⟩ := ih (show rest.length ≤ count by simpa using enough)
        have above : 0x80 ≤ a.toNat := by
          refine Nat.le_of_not_lt fun ascii => ?_
          rw [Scalar.leading?_one rest ascii] at unread
          cases unread
        exact ⟨by rw [List.flatMap_cons, joined]; rfl,
          List.forall_mem_cons.mpr ⟨Or.inr ⟨rfl, a, above, rfl⟩, units⟩⟩

theorem flatMap_scalars (text : Bytes) : (scalars text).flatMap (·.bytes) = text :=
  (scalarsFrom_units (Nat.le_refl _)).1

theorem isUnit_of_mem_scalars (text : Bytes) : ∀ unit ∈ scalars text, unit.IsUnit :=
  (scalarsFrom_units (Nat.le_refl _)).2

theorem isScalar_of_codePoints (text : Bytes) : ∀ code ∈ codePoints text, IsScalar code := by
  intro code member
  obtain ⟨unit, there, rfl⟩ := List.mem_map.mp member
  rcases isUnit_of_mem_scalars text unit there with ⟨isScalar, _⟩ | ⟨replaced, _⟩
  · exact isScalar
  · rw [replaced]
    exact ⟨by decide, by decide⟩

theorem scalars_ascii (ascii : text.all (· < 0x80) = true) :
    scalars text = text.map fun b => ⟨b.toNat, [b]⟩ := by
  have all (count : Nat) (text : Bytes) (enough : text.length ≤ count) (ascii : ∀ b ∈ text, b < 0x80) :
      scalarsFrom count text = text.map fun b => ⟨b.toNat, [b]⟩ := by
    induction text generalizing count with
    | nil => cases count <;> rfl
    | cons a rest ih =>
      obtain ⟨smaller, rfl⟩ : ∃ smaller, count = smaller + 1 := ⟨count - 1, by simp at enough; omega⟩
      have small := UInt8.lt_iff_toNat_lt.mp (ascii a (by simp))
      rw [scalarsFrom, Scalar.leading?_one rest small]
      simpa using ih smaller (by simpa using enough) fun b member => ascii b (by simp [member])
  exact all _ text (Nat.le_refl _) (by simpa using ascii)

theorem codePoints_ascii (ascii : text.all (· < 0x80) = true) : codePoints text = text.map UInt8.toNat := by
  rw [codePoints, scalars_ascii ascii, List.map_map]
  rfl

variable {b : UInt8} {code : Nat}

theorem encode_lowerCode_ascii (ascii : b < 0x80) :
    encode (lowerCode b.toNat) = [if 65 ≤ b && b ≤ 90 then b + 32 else b] := by
  have all : ∀ n < 128, encode (lowerCode n) = [if 65 ≤ n.toUInt8 && n.toUInt8 ≤ 90 then n.toUInt8 + 32 else n.toUInt8] := by
    decide +kernel
  have small := all b.toNat (UInt8.lt_iff_toNat_lt.mp ascii)
  simpa using small

theorem lower_eq (text : Bytes) : lower text = (codePoints text).flatMap fun code => encode (lowerCode code) := by
  rw [lower]
  split
  · rename_i ascii
    have each : ∀ b ∈ text, [if 65 ≤ b && b ≤ 90 then b + 32 else b] = encode (lowerCode b.toNat) := fun b member =>
      (encode_lowerCode_ascii (by simpa using List.all_eq_true.mp ascii b member)).symm
    rw [codePoints_ascii ascii, List.flatMap_map, List.map_eq_flatMap, List.flatMap_def, List.flatMap_def,
      List.map_congr_left each]
  · rfl

namespace CaseRange

def low (range : CaseRange) : Nat := (range.first + range.shift).toNat

def high (range : CaseRange) : Nat := (range.last + range.shift).toNat

def isLowering (range : CaseRange) : Bool :=
  90 < range.first + range.shift && range.high ≤ 0x10FFFF && (range.high < 0xD800 || 0xDFFF < range.low)

def misses (range other : CaseRange) : Bool :=
  Nat.blt other.last range.low || Nat.blt range.high other.first
    || ((range.step == 2 || range.first == range.last) && other.step == 2 && (range.low + other.first) % 2 == 1)

variable {range other : CaseRange} {code : Nat}

theorem bounds_of_holds (here : range.holds code = true) : range.first ≤ code ∧ code ≤ range.last := by
  simp only [holds, Bool.and_eq_true, decide_eq_true_eq] at here
  exact here.1

theorem not_holds_of_misses (lowering : range.isLowering = true) (apart : range.misses other = true)
    (here : range.holds code = true) : other.holds (code + range.shift).toNat = false := by
  obtain ⟨above, below⟩ := bounds_of_holds here
  simp only [isLowering, misses, low, high, Bool.and_eq_true, Bool.or_eq_true, decide_eq_true_eq, beq_iff_eq,
    Nat.blt_eq] at lowering apart
  cases there : other.holds (code + range.shift).toNat with
  | false => rfl
  | true =>
    have := bounds_of_holds there
    rcases apart with (early | late) | ⟨⟨sparse, otherSparse⟩, odd⟩
    · omega
    · omega
    · simp only [holds, Bool.and_eq_true, decide_eq_true_eq, beq_iff_eq, otherSparse] at there
      rcases sparse with sparse | alone
      · simp only [holds, Bool.and_eq_true, decide_eq_true_eq, beq_iff_eq, sparse] at here
        omega
      · omega

end CaseRange

theorem upperRanges_lowering : upperRanges.all CaseRange.isLowering = true := by decide +kernel

theorem upperRanges_apart : upperRanges.all (fun range => upperRanges.all range.misses) = true := by decide +kernel

theorem lowerCode_cases (beyond : 0x80 ≤ code) :
    lowerCode code = code ∨ ∃ range ∈ upperRanges, range.holds code = true ∧ lowerCode code = (code + range.shift).toNat := by
  rw [lowerCode, if_neg (by omega)]
  cases found : upperRanges.find? (·.holds code) with
  | none => exact .inl rfl
  | some range => exact .inr ⟨range, List.mem_of_find?_eq_some found, by simpa using List.find?_some found, rfl⟩

theorem lowerCode_ascii : ∀ code < 0x80, lowerCode code < 0x80 ∧ lowerCode (lowerCode code) = lowerCode code := by
  decide +kernel

theorem lowerCode_of_missed (beyond : 90 < code) (missed : ∀ range ∈ upperRanges, range.holds code = false) :
    lowerCode code = code := by
  have none : upperRanges.find? (·.holds code) = none := List.find?_eq_none.mpr fun range member => by
    simp [missed range member]
  rw [lowerCode, none]
  split
  · exact if_neg (by simp; omega)
  · rfl

theorem lowerCode_lowerCode (code : Nat) : lowerCode (lowerCode code) = lowerCode code := by
  by_cases ascii : code < 0x80
  · exact (lowerCode_ascii code ascii).2
  · rcases lowerCode_cases (Nat.not_lt.mp ascii) with same | ⟨range, member, here, lowered⟩
    · rw [same, same]
    · have lowering := List.all_eq_true.mp upperRanges_lowering range member
      have apart := List.all_eq_true.mp (List.all_eq_true.mp upperRanges_apart range member)
      have bounds := CaseRange.bounds_of_holds here
      rw [lowered]
      refine lowerCode_of_missed ?_ fun other there => CaseRange.not_holds_of_misses lowering (apart other there) here
      simp only [CaseRange.isLowering, Bool.and_eq_true, decide_eq_true_eq] at lowering
      omega

theorem isScalar_lowerCode (isScalar : IsScalar code) : IsScalar (lowerCode code) := by
  by_cases ascii : code < 0x80
  · have small := (lowerCode_ascii code ascii).1
    constructor <;> omega
  · rcases lowerCode_cases (Nat.not_lt.mp ascii) with same | ⟨range, member, here, lowered⟩
    · rwa [same]
    · have lowering := List.all_eq_true.mp upperRanges_lowering range member
      have bounds := CaseRange.bounds_of_holds here
      simp only [CaseRange.isLowering, Bool.and_eq_true, Bool.or_eq_true, decide_eq_true_eq] at lowering
      unfold CaseRange.low CaseRange.high at lowering
      rw [lowered]
      constructor <;> omega

theorem lower_lower (text : Bytes) : lower (lower text) = lower text := by
  have valid : ∀ code ∈ (codePoints text).map lowerCode, IsScalar code := by
    intro code member
    obtain ⟨original, there, rfl⟩ := List.mem_map.mp member
    exact isScalar_lowerCode (isScalar_of_codePoints text original there)
  have read : codePoints (lower text) = (codePoints text).map lowerCode := by
    rw [lower_eq, ← codePoints_encode valid, List.flatMap_map]
  rw [lower_eq (lower text), read, List.flatMap_map, lower_eq]
  simp only [lowerCode_lowerCode]

def foldByte (b : UInt8) : UInt8 := if 65 ≤ b && b ≤ 90 then b + 32 else b

theorem foldByte_cases (b : UInt8) :
    foldByte b = b ∨ (65 ≤ b.toNat ∧ b.toNat ≤ 90 ∧ (foldByte b).toNat = b.toNat + 32) := by
  rw [foldByte]
  split
  · rename_i upper
    simp only [Bool.and_eq_true, decide_eq_true_eq, UInt8.le_iff_toNat_le, UInt8.reduceToNat] at upper
    refine .inr ⟨upper.1, upper.2, ?_⟩
    simp only [UInt8.toNat_add, UInt8.reduceToNat]
    omega
  · exact .inl rfl

theorem foldByte_of_continues (continues : Scalar.continues b = true) : foldByte b = b := by
  rcases foldByte_cases b with same | ⟨_, small, _⟩
  · exact same
  · simp only [Scalar.continues, Bool.and_eq_true, decide_eq_true_eq, UInt8.le_iff_toNat_le, UInt8.reduceToNat]
      at continues
    omega

theorem continues_foldByte (b : UInt8) : Scalar.continues (foldByte b) = Scalar.continues b := by
  rcases foldByte_cases b with same | ⟨large, small, lowered⟩
  · rw [same]
  · simp only [Scalar.continues, UInt8.le_iff_toNat_le, UInt8.reduceToNat, lowered]
    grind

theorem two?_foldByte (a b : UInt8) : Scalar.two? a (foldByte b) = Scalar.two? a b := by
  simp only [Scalar.two?, continues_foldByte]
  grind [foldByte_of_continues]

theorem three?_foldByte (a b c : UInt8) : Scalar.three? a (foldByte b) (foldByte c) = Scalar.three? a b c := by
  simp only [Scalar.three?, continues_foldByte]
  grind [foldByte_of_continues]

theorem four?_foldByte (a b c d : UInt8) :
    Scalar.four? a (foldByte b) (foldByte c) (foldByte d) = Scalar.four? a b c d := by
  simp only [Scalar.four?, continues_foldByte]
  grind [foldByte_of_continues]

theorem foldByte_ascii (ascii : b.toNat < 0x80) :
    (foldByte b).toNat < 0x80 ∧ lowerCode (foldByte b).toNat = lowerCode b.toNat := by
  rcases foldByte_cases b with same | ⟨large, small, lowered⟩
  · rw [same]
    exact ⟨ascii, rfl⟩
  · have twice := (lowerCode_ascii b.toNat ascii).2
    have once : lowerCode b.toNat = b.toNat + 32 := by
      rw [lowerCode, if_pos ascii, if_pos (by simp; omega)]
    rw [lowered, ← once, twice]
    exact ⟨by omega, rfl⟩

theorem foldByte_beyond (beyond : 0x80 ≤ b.toNat) : foldByte b = b := by
  rcases foldByte_cases b with same | ⟨_, small, _⟩
  · exact same
  · omega

theorem Scalar.leading?_folded (a : UInt8) (rest : Bytes) :
    Scalar.leading? (a :: rest.map foldByte) = Scalar.leading? (a :: rest) := by
  rcases rest with _ | ⟨b, _ | ⟨c, _ | ⟨d, rest⟩⟩⟩ <;>
    simp only [List.map_nil, List.map_cons, Scalar.leading?, two?_foldByte, three?_foldByte, four?_foldByte]

theorem scalarsFrom_folded (count : Nat) (text : Bytes) :
    (scalarsFrom count (text.map foldByte)).map (lowerCode ·.code) = (scalarsFrom count text).map (lowerCode ·.code) := by
  induction count generalizing text with
  | zero => rfl
  | succ count ih =>
    cases text with
    | nil => rfl
    | cons a rest =>
      by_cases ascii : a.toNat < 0x80
      · obtain ⟨small, same⟩ := foldByte_ascii ascii
        rw [List.map_cons, scalarsFrom, scalarsFrom, Scalar.leading?_one _ small, Scalar.leading?_one _ ascii]
        simp only [List.map_cons, same, List.length_singleton, List.drop_succ_cons, List.drop_zero, ih]
      · have beyond : 0x80 ≤ a.toNat := Nat.not_lt.mp ascii
        rw [List.map_cons, foldByte_beyond beyond, scalarsFrom, scalarsFrom, Scalar.leading?_folded]
        cases Scalar.leading? (a :: rest) with
        | none => simp only [List.map_cons, ih]
        | some found =>
          have dropped : (a :: rest.map foldByte).drop found.bytes.length =
              ((a :: rest).drop found.bytes.length).map foldByte := by
            rw [List.map_drop, List.map_cons, foldByte_beyond beyond]
          simp only [List.map_cons, dropped, ih]

def folded (text : Bytes) : Bytes := text.map foldByte

theorem lower_folded (text : Bytes) : lower (folded text) = lower text := by
  have codes (text : Bytes) : lower text = ((scalars text).map (lowerCode ·.code)).flatMap encode := by
    rw [lower_eq, codePoints, List.flatMap_map, List.flatMap_map]
  rw [codes, codes, scalars, scalars, folded, List.length_map, scalarsFrom_folded]

end Cb
