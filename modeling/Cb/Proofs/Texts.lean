import Cb.Text.Digit

/-! Byte texts: decimal digits, and where a text is cut. -/

namespace Cb

theorem toNat_byte (isDigit : c.isDigit = true) : (byte c).toNat = c.toNat ∧ 48 ≤ c.toNat ∧ c.toNat ≤ 57 := by
  have range : 48 ≤ c.toNat ∧ c.toNat ≤ 57 := by
    simpa [Char.isDigit, UInt32.le_iff_toNat_le] using isDigit
  refine ⟨?_, range⟩
  rw [byte, Nat.toUInt8, UInt8.toNat_ofNat']
  omega

namespace Bytes

theorem isDecimal_of_mem_ofNat (member : b ∈ ofNat n) : isDecimal b = true := by
  obtain ⟨c, isDigit, rfl⟩ := List.mem_map.mp member
  have range := toNat_byte (Nat.isDigit_of_mem_toDigits (by decide) (by decide) isDigit)
  simp only [isDecimal, UInt8.le_iff_toNat_le, range.1, Bool.and_eq_true, decide_eq_true_eq]
  exact range.2

theorem decimalOf_ofNat (n : Nat) : decimalOf (ofNat n) = n := by
  have digits (cs : List Char) (isDigits : ∀ c ∈ cs, c.isDigit = true) (start : Nat) :
      ((cs.map byte).map fun b => b.toNat - 48).foldl (fun number digit => number * 10 + digit) start =
        Nat.ofDigitChars 10 cs start := by
    induction cs generalizing start with
    | nil => rfl
    | cons c rest ih =>
      have same := (toNat_byte (isDigits c (by simp))).1
      simp only [List.map_cons, List.foldl_cons, same, Nat.ofDigitChars_cons]
      rw [ih fun d later => isDigits d (by simp [later]), Nat.mul_comm]
      rfl
  rw [decimalOf, numberOf, ofNat, digits _ fun c member => Nat.isDigit_of_mem_toDigits (by decide) (by decide) member]
  exact Nat.ofDigitChars_toDigits (by decide) (by decide)

theorem ofNat_ne_nil (n : Nat) : ofNat n ≠ [] := by simp [ofNat]

theorem eq_zero_of_head?_ofNat (zero : (ofNat n).head? = some 48) : n = 0 := by
  have single : ∀ n < 10, (ofNat n).head? = some 48 → n = 0 := by decide
  induction n using Nat.strongRecOn with
  | ind n ih =>
    by_cases small : n < 10
    · exact single n small zero
    · have more : ofNat n = ofNat (n / 10) ++ [byte (n % 10).digitChar] := by
        rw [ofNat, Nat.toDigits_of_base_le (by decide) (by omega), List.map_append]
        rfl
      obtain ⟨first, others, shape⟩ := List.exists_cons_of_ne_nil (ofNat_ne_nil (n / 10))
      rw [more, shape] at zero
      have := ih (n / 10) (by omega) (by rw [shape]; exact zero)
      omega

theorem cut?_append (absent : mark ∉ front) (rest : Bytes) :
    cut? mark (front ++ mark :: rest) = some (front, rest) := by
  induction front with
  | nil => simp [cut?]
  | cons first others ih =>
    simp only [List.mem_cons, not_or] at absent
    simp [cut?, Ne.symm absent.1, ih absent.2]

theorem cut?_of_absent (absent : mark ∉ text) : cut? mark text = none := by
  induction text with
  | nil => rfl
  | cons first rest ih =>
    simp only [List.mem_cons, not_or] at absent
    simp [cut?, Ne.symm absent.1, ih absent.2]

theorem split_ne_nil (mark : UInt8) (text : Bytes) : split mark text ≠ [] := by
  cases text with
  | nil => simp [split]
  | cons first rest =>
    rw [split]
    split
    · simp
    · split <;> simp

theorem split_append (mark : UInt8) (first second : Bytes) :
    split mark (first ++ mark :: second) = split mark first ++ split mark second := by
  induction first with
  | nil => simp [split]
  | cons b rest ih =>
    rw [List.cons_append, split, split, ih]
    split
    · rfl
    · obtain ⟨part, parts, shape⟩ := List.exists_cons_of_ne_nil (split_ne_nil mark rest)
      rw [shape]
      rfl

theorem split_of_absent (absent : mark ∉ text) : split mark text = [text] := by
  induction text with
  | nil => rfl
  | cons b rest ih =>
    simp only [List.mem_cons, not_or] at absent
    rw [split, if_neg (Ne.symm absent.1), ih absent.2]

end Bytes

end Cb
