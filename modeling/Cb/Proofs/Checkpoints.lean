import Cb.Proofs.FurthestFailure
import Mathlib.Data.Prod.Lex

/-! Checkpoints that overlap. Setting a reader back takes the lesser of two positions and, for each part of the scope,
the lesser of two sizes. So a checkpoint may be used again, and two of them in either order; and a reader that has only
read on, while its scope has only grown, is set back exactly. -/

namespace Cb

namespace Position

def key (p : Position) : Lex (Nat × Nat) := toLex (p.line, p.column)

theorem eq_of_key {p q : Position} (same : p.key = q.key) : p = q := by
  obtain ⟨line, column⟩ := Prod.mk.inj (toLex.injective same)
  cases p
  cases q
  simp_all

theorem before_iff_key {p q : Position} : p.before q = true ↔ p.key < q.key := by
  rw [before_iff, key, key, Prod.Lex.toLex_lt_toLex]

end Position

def ScopeSizes.least (m n : ScopeSizes) : ScopeSizes :=
  ⟨min m.types n.types, min m.functions n.functions, min m.stack n.stack⟩

namespace Scope

theorem sizes_truncate (s : Scope) (sizes : ScopeSizes) : (s.truncate sizes).sizes = s.sizes.least sizes := by
  simp only [Scope.sizes, truncate, ScopeSizes.least, List.length_take, List.length_drop, ScopeSizes.mk.injEq]
  omega

theorem truncate_truncate (s : Scope) (m n : ScopeSizes) : (s.truncate m).truncate n = s.truncate (m.least n) := by
  simp only [truncate, ScopeSizes.least, List.take_take, List.drop_drop, List.length_drop, Scope.mk.injEq]
  refine ⟨by rw [min_comm], by rw [min_comm], ?_⟩
  congr 1
  omega

structure Grows (later earlier : Scope) : Prop where
  types : earlier.types <+: later.types
  functions : earlier.functions <+: later.functions
  stack : earlier.stack <:+ later.stack

theorem Grows.refl (s : Scope) : s.Grows s := ⟨List.prefix_rfl, List.prefix_rfl, List.suffix_rfl⟩

theorem Grows.trans {s t u : Scope} (second : u.Grows t) (first : t.Grows s) : u.Grows s :=
  ⟨first.types.trans second.types, first.functions.trans second.functions, first.stack.trans second.stack⟩

theorem Grows.push (s : Scope) (entry : Entry) : (s.push entry).Grows s :=
  ⟨List.prefix_rfl, List.prefix_rfl, List.suffix_cons entry s.stack⟩

theorem Grows.truncate {s t : Scope} (grows : t.Grows s) : t.truncate s.sizes = s := by
  have types := List.prefix_iff_eq_take.mp grows.types
  have functions := List.prefix_iff_eq_take.mp grows.functions
  have stack := List.suffix_iff_eq_drop.mp grows.stack
  simp only [Scope.truncate, Scope.sizes, ← types, ← functions, ← stack]

theorem grows_truncate (s : Scope) (sizes : ScopeSizes) : s.Grows (s.truncate sizes) :=
  ⟨List.take_prefix _ _, List.take_prefix _ _, List.drop_suffix _ _⟩

end Scope

namespace Reader

section Restoring

variable (r : Reader) (c d : Checkpoint)

theorem key_restore : (r.restore c).pos.key = min r.pos.key c.pos.key := by
  simp only [restore]
  split
  · rename_i back
    exact (min_eq_right (Position.before_iff_key.mp back).le).symm
  · rename_i stays
    rw [Position.before_iff_key, not_lt] at stays
    exact (min_eq_left stays).symm

theorem eq_of_pos_of_scope {r s : Reader} (pos : r.pos = s.pos) (scope : r.scope = s.scope)
    (failure : r.failure = s.failure) (remarks : r.remarks = s.remarks) : r = s := by
  cases r
  cases s
  simp_all

theorem restore_restore_self : (r.restore c).restore c = r.restore c := by
  refine eq_of_pos_of_scope (Position.eq_of_key ?_) ?_ rfl rfl
  · rw [key_restore, key_restore, min_assoc, min_self]
  · change (r.scope.truncate c.sizes).truncate c.sizes = r.scope.truncate c.sizes
    simp [Scope.truncate_truncate, ScopeSizes.least]

theorem restore_restore_comm : (r.restore c).restore d = (r.restore d).restore c := by
  refine eq_of_pos_of_scope (Position.eq_of_key ?_) ?_ rfl rfl
  · rw [key_restore, key_restore, key_restore, key_restore, min_assoc, min_assoc, min_comm c.pos.key]
  · change (r.scope.truncate c.sizes).truncate d.sizes = (r.scope.truncate d.sizes).truncate c.sizes
    simp only [Scope.truncate_truncate, ScopeSizes.least, min_comm]

end Restoring

variable {source : Source} {r middle after : Reader}

def Operation.ReadsOn (source : Source) (r : Reader) : Operation → Prop
  | .restore _ _ | .restoreScope _ | .fail _ => False
  | op => op.raised source r = none

/-- What can happen to a reader that does not go back: it reads on, variables are defined, blocks, functions and frames
are entered, and functions with new names are registered. -/
inductive GoesOn (source : Source) (r : Reader) : Reader → Prop
  | start : GoesOn source r r
  | read {middle : Reader} (op : Operation) (earlier : GoesOn source r middle) (on : op.ReadsOn source middle) :
      GoesOn source r (op.run source middle)
  | define {middle : Reader} (earlier : GoesOn source r middle) (name : Bytes) (ty : Ty) (size : Int) :
      GoesOn source r { middle with scope := (middle.scope.define name ty size).2 }
  | defineVariable {middle : Reader} (earlier : GoesOn source r middle) (name : Bytes) (ty : Ty) :
      GoesOn source r { middle with scope := (middle.scope.defineVariable name ty).2 }
  | enterBlock {middle : Reader} (earlier : GoesOn source r middle) :
      GoesOn source r { middle with scope := middle.scope.enterBlock }
  | enterFunction {middle : Reader} (earlier : GoesOn source r middle) :
      GoesOn source r { middle with scope := middle.scope.enterFunction }
  | enterFrame {middle : Reader} (earlier : GoesOn source r middle) :
      GoesOn source r { middle with scope := middle.scope.enterFrame }
  | register {middle : Reader} {f : Function} {scope : Scope} (earlier : GoesOn source r middle)
      (new : ∀ known ∈ middle.scope.functions, known.name ≠ f.name) (added : middle.scope.addFunction f = .ok scope) :
      GoesOn source r { middle with scope }

theorem testText_ahead (text : Bytes) (r : Reader) : source.Ahead r.pos (r.testText source text).2.pos := by
  cases found : (r.testText source text).1 with
  | false =>
    rw [testText_pos found]
    exact .refl _
  | true =>
    have tested : source.Ahead r.pos (testCodes source (codePoints text) r).2.pos := testCodes_ahead _ r
    simp only [testText] at found ⊢
    split
    · rename_i moved
      rwa [moved] at tested
    · rename_i stayed
      simp [stayed] at found

theorem expectCodes_of_quiet (codes : List Nat) (c : Checkpoint) (quiet : raisedAmong source codes r = none) :
    source.Ahead r.pos (expectCodes source c codes r).2.pos ∧ (expectCodes source c codes r).2.scope = r.scope := by
  induction codes generalizing r with
  | nil => exact ⟨.refl _, rfl⟩
  | cons code rest ih =>
    rw [raisedAmong] at quiet
    split at quiet
    · rename_i next
      obtain ⟨ahead, kept⟩ := ih quiet
      simp only [expectCodes, expect, if_pos next]
      exact ⟨(advance_ahead r).trans ahead, kept.trans (advance_scope source r)⟩
    · cases quiet

theorem expectBlanks_of_quiet (c : Checkpoint) (quiet : (Operation.expectBlanks c).raised source r = none) :
    (r.expectBlanks source c).2 = (r.skip source).2 := by
  simp only [Operation.raised, ite_eq_right_iff, reduceCtorEq, imp_false] at quiet
  rw [expectBlanks]
  split
  · rename_i nothing
    exact absurd (congrArg Prod.fst nothing) quiet
  · rename_i skipped
    rw [skipped]

theorem Operation.ReadsOn.moves {op : Operation} (on : op.ReadsOn source r) :
    source.Ahead r.pos (op.run source r).pos ∧ (op.run source r).scope = r.scope := by
  cases op with
  | advance => exact ⟨advance_ahead r, advance_scope source r⟩
  | skip => exact ⟨skip_ahead r, skipUpTo_scope source _ r⟩
  | test code => exact ⟨test_ahead code r, test_scope source code r⟩
  | testText text => exact ⟨testText_ahead text r, testText_scope source text r⟩
  | expect code c =>
    have quiet : raisedAmong source [code] r = none := on
    rw [raisedAmong] at quiet
    split at quiet
    · rename_i next
      simp only [Operation.run, Reader.expect, if_pos next]
      exact ⟨advance_ahead r, advance_scope source r⟩
    · cases quiet
  | expectText text c => exact expectCodes_of_quiet _ c on
  | expectBlanks c =>
    rw [Operation.run, expectBlanks_of_quiet c on]
    exact ⟨skip_ahead r, skipUpTo_scope source _ r⟩
  | word => exact ⟨word_ahead r, rfl⟩
  | restOfLine => exact ⟨restOfLine_ahead r, restOfLine_scope source r⟩
  | checkpoint => exact ⟨.refl _, rfl⟩
  | restore | restoreScope | fail => exact on.elim

theorem GoesOn.grows (on : GoesOn source r after) : source.Ahead r.pos after.pos ∧ after.scope.Grows r.scope := by
  induction on with
  | start => exact ⟨.refl _, .refl _⟩
  | read _ _ on ih =>
    obtain ⟨ahead, kept⟩ := on.moves
    rw [kept]
    exact ⟨ih.1.trans ahead, ih.2⟩
  | define | defineVariable | enterBlock | enterFunction =>
    rename_i ih
    exact ⟨ih.1, (Scope.Grows.push _ _).trans ih.2⟩
  | enterFrame _ ih => exact ⟨ih.1, ((Scope.Grows.push _ _).trans (.push _ _)).trans ih.2⟩
  | register _ new added ih =>
    rw [Scope.addFunction, Scope.register_new new] at added
    cases added
    exact ⟨ih.1, ih.2.types, ih.2.functions.trans (List.prefix_append _ _), ih.2.stack⟩

theorem GoesOn.restore (on : GoesOn source r after) (reason : Reason) :
    ((Operation.restore r.checkpoint reason).run source after).pos = r.pos ∧
      ((Operation.restore r.checkpoint reason).run source after).scope = r.scope := by
  obtain ⟨ahead, grows⟩ := on.grows
  simp only [Operation.run]
  split
  · exact ⟨restore_pos (c := r.checkpoint) ahead, grows.truncate⟩
  · exact ⟨reject_pos (c := r.checkpoint) ahead reason, (reject_scope after _ reason).trans grows.truncate⟩

/-- Of two positions and two sizes the lesser counts, and what stays in the scope is unchanged. -/
theorem checkpoints_overlap (source : Source) (r : Reader) (c d : Checkpoint) :
    ((r.restore c).pos.key = min r.pos.key c.pos.key ∧ (r.restore c).scope.sizes = r.scope.sizes.least c.sizes ∧
      r.scope.Grows (r.restore c).scope) ∧
    (r.restore c).restore c = r.restore c ∧ (r.restore c).restore d = (r.restore d).restore c ∧
    ∀ after reason, GoesOn source r after →
      ((Operation.restore r.checkpoint reason).run source after).pos = r.pos ∧
        ((Operation.restore r.checkpoint reason).run source after).scope = r.scope :=
  ⟨⟨r.key_restore c, r.scope.sizes_truncate c.sizes, r.scope.grows_truncate c.sizes⟩, r.restore_restore_self c,
    r.restore_restore_comm c d, fun _ reason on => on.restore reason⟩

/-- A name is read, and a variable, a block and a function are added; then the reader goes back to the start, past a
checkpoint that was taken later and holds more. -/
theorem checkpoints_overlap_nested :
    let source : Source := { lines := #["int x;"], origins := #["t.cb"] }
    let f : Function := { name := "f", returns := .int, params := [] }
    let r : Reader := {}
    let named : Reader := (r.word source).2
    let middle : Reader := { named with scope := (named.scope.defineVariable "x" .int).2.enterBlock }
    let after : Reader := { middle with scope := { middle.scope with functions := [f] } }
    GoesOn source r after ∧ after.pos = ⟨0, 3⟩ ∧ after.scope.sizes ≠ r.scope.sizes ∧
      (after.restore r.checkpoint).restore middle.checkpoint = (after.restore middle.checkpoint).restore r.checkpoint ∧
      (after.restore r.checkpoint).pos = r.pos ∧ (after.restore r.checkpoint).scope = r.scope := by
  intro source f r named middle after
  have on : GoesOn source r after := by
    have read : GoesOn source r named := .read .word .start rfl
    exact .register (f := f) (.enterBlock (.defineVariable read "x" .int)) nofun rfl
  have goesBack := (checkpoints_overlap source r r.checkpoint middle.checkpoint).2.2.2 after (.other []) on
  refine ⟨on, by decide +kernel, by decide +kernel, ?_, goesBack⟩
  exact (checkpoints_overlap source after r.checkpoint middle.checkpoint).2.2.1

end Reader

end Cb
