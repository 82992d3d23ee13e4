import Cb.Scenario
import Mathlib.Data.List.NodupEquivFin

/-! Expected lines and the lines of an output. The output is read once and each of its lines is used for the first
expected line that is still open. This finds the expected lines whenever they can be found in their order at all, so the
line that is reported is the first one up to which they cannot. -/

namespace Cb

def InOrder (given wanted : List Bytes) : Prop :=
  ∃ place : Fin wanted.length → Fin given.length,
    StrictMono place ∧ ∀ i, trim (given.get (place i)) = wanted.get i

theorem inOrder_iff_sublist (given wanted : List Bytes) : InOrder given wanted ↔ wanted.Sublist (given.map trim) := by
  rw [List.sublist_iff_exists_fin_orderEmbedding_get_eq]
  constructor
  · rintro ⟨place, mono, same⟩
    refine ⟨.ofStrictMono (fun i => (place i).cast (by simp)) fun i j less => mono less, fun i => ?_⟩
    simp only [List.get_eq_getElem, List.getElem_map]
    exact (same i).symm
  · rintro ⟨place, same⟩
    refine ⟨fun i => (place i).cast (by simp), fun i j less => place.strictMono less, fun i => ?_⟩
    simpa using (same i).symm

theorem firstMissing_eq_none_iff (given wanted : List Bytes) :
    firstMissing given wanted = none ↔ wanted.Sublist (given.map trim) := by
  fun_induction firstMissing given wanted with
  | case1 => simp
  | case2 => simp
  | case3 given rest wanted ih => simp [ih]
  | case4 given rest line wanted other ih =>
    rw [ih, List.map_cons, List.sublist_cons_iff]
    simp [Ne.symm other]

theorem firstMissing_eq_some (missing : firstMissing given wanted = some line) :
    ∃ found rest, wanted = found ++ line :: rest ∧
      found.Sublist (given.map trim) ∧ ¬ (found ++ [line]).Sublist (given.map trim) := by
  fun_induction firstMissing given wanted with
  | case1 => cases missing
  | case2 first rest =>
    cases missing
    exact ⟨[], rest, by simp⟩
  | case3 first later wanted ih =>
    obtain ⟨found, rest, rfl, before, not⟩ := ih missing
    exact ⟨trim first :: found, rest, by simp [before, not]⟩
  | case4 first later wantedFirst wanted other ih =>
    obtain ⟨found, rest, whole, before, not⟩ := ih missing
    refine ⟨found, rest, whole, before.cons _, fun sublist => ?_⟩
    -- The first output line is not the first expected one, so it helps no expected line.
    rcases List.sublist_cons_iff.mp sublist with later | ⟨tail, starts, _⟩
    · exact not later
    · cases found with
      | nil => simp_all
      | cons head found => simp_all

/-- No line is missing exactly if the wanted lines stand among the given ones in this order. Otherwise the line that is
reported is the first one up to which they do not. -/
theorem firstMissing_iff_inOrder (given wanted : List Bytes) :
    (firstMissing given wanted = none ↔ InOrder given wanted) ∧
    ∀ line, firstMissing given wanted = some line ↔
      ∃ n, wanted[n]? = some line ∧ ¬ InOrder given (wanted.take (n + 1)) ∧
        ∀ m < n, InOrder given (wanted.take (m + 1)) := by
  simp only [inOrder_iff_sublist]
  refine ⟨firstMissing_eq_none_iff given wanted, fun line => ?_⟩
  have reported {line : Bytes} (missing : firstMissing given wanted = some line) :
      ∃ n, wanted[n]? = some line ∧ ¬ (wanted.take (n + 1)).Sublist (given.map trim) ∧
        ∀ m < n, (wanted.take (m + 1)).Sublist (given.map trim) := by
    obtain ⟨found, rest, rfl, before, not⟩ := firstMissing_eq_some missing
    refine ⟨found.length, by simp, by simpa [List.take_length_add_append] using not, fun m less => ?_⟩
    rw [List.take_append_of_le_length less]
    exact (List.take_sublist _ _).trans before
  refine ⟨reported, ?_⟩
  rintro ⟨n, isLine, not, before⟩
  cases missing : firstMissing given wanted with
  | none =>
    rw [firstMissing_eq_none_iff] at missing
    exact absurd ((List.take_sublist _ _).trans missing) not
  | some other =>
    obtain ⟨m, isOther, notOther, beforeOther⟩ := reported missing
    rcases Nat.lt_trichotomy m n with less | rfl | more
    · exact absurd (before m less) notOther
    · exact isOther.symm.trans isLine
    · exact absurd (beforeOther n more) not

example : firstMissing ["  mov ax, 1", "ret"] ["mov ax, 1", "mov ax, 1", "ret"] = some (utf8 "mov ax, 1") := by
  decide +kernel

end Cb
