import Cb.Grammar.Rule

/-! What the moves of a reader do to the scope. -/

namespace Cb

def Scope.Extends (later earlier : Scope) : Prop :=
  later.types = earlier.types ∧ later.functions = earlier.functions ∧ ∃ above, later.stack = above ++ earlier.stack

namespace Scope.Extends

theorem refl (s : Scope) : s.Extends s := ⟨rfl, rfl, [], rfl⟩

theorem trans {s t u : Scope} (second : u.Extends t) (first : t.Extends s) : u.Extends s := by
  obtain ⟨types, functions, above, stack⟩ := first
  obtain ⟨types', functions', above', stack'⟩ := second
  exact ⟨types'.trans types, functions'.trans functions, above' ++ above, by rw [stack', stack, List.append_assoc]⟩

theorem push (s : Scope) (entry : Entry) : (s.push entry).Extends s := ⟨rfl, rfl, [entry], rfl⟩

theorem truncate {s t : Scope} (extends' : t.Extends s) : t.truncate s.sizes = s := by
  obtain ⟨types, functions, above, stack⟩ := extends'
  cases s
  cases t
  simp_all [Scope.truncate, Scope.sizes]

end Scope.Extends

namespace Reader

theorem note_scope (r : Reader) (reason : Reason) : (r.note reason).scope = r.scope := by
  simp only [note]
  repeat' split
  all_goals rfl

theorem reject_scope (r : Reader) (c : Checkpoint) (reason : Reason) :
    (r.reject c reason).scope = r.scope.truncate c.sizes := by
  change (r.note reason).scope.truncate c.sizes = _
  rw [note_scope]

end Reader

theorem Rule.bind_apply {α β : Type} (rule : Rule α) (next : α → Rule β) (env : Env) (r : Reader) :
    (rule >>= next) env r = match rule env r with
      | .ok value after => next value env after
      | .fail after => .fail after
      | .exhausted => .exhausted := rfl

theorem Rule.bind_ok {α β : Type} {rule : Rule α} {next : α → Rule β} {result : β}
    (ran : (rule >>= next) env r = .ok result after) :
    ∃ value middle, rule env r = .ok value middle ∧ next value env middle = .ok result after := by
  rw [bind_apply] at ran
  cases first : rule env r with
  | ok value middle =>
    rw [first] at ran
    exact ⟨value, middle, rfl, ran⟩
  | fail middle =>
    rw [first] at ran
    cases ran
  | exhausted =>
    rw [first] at ran
    cases ran

theorem Rule.expect_ok {character : Char} (ran : expect character c env r = .ok () after) :
    r.peek env.source = character.toNat ∧ after = r.advance env.source := by
  simp only [expect, require, Reader.expect] at ran
  by_cases next : r.peek env.source = character.toNat
  · rw [if_pos next] at ran
    cases ran
    exact ⟨next, rfl⟩
  · rw [if_neg next] at ran
    cases ran

theorem Scope.register_new (new : ∀ known ∈ table, known.name ≠ f.name) : register f table = .ok (table ++ [f]) := by
  induction table with
  | nil => rfl
  | cons known rest ih =>
    rw [List.forall_mem_cons] at new
    rw [register, if_pos new.1, ih new.2]
    rfl

theorem Scope.truncate_sizes (s : Scope) : s.truncate s.sizes = s := (Scope.Extends.refl s).truncate

namespace Reader

variable (source : Source)

@[simp] theorem advance_scope (r : Reader) : (r.advance source).scope = r.scope := by
  simp only [advance]
  repeat' split
  all_goals rfl

@[simp] theorem skipUpTo_scope (limit : Nat) (r : Reader) : (skipUpTo source limit r).2.scope = r.scope := by
  induction limit generalizing r with
  | zero => rfl
  | succ limit ih =>
    simp only [skipUpTo]
    split
    · rw [ih, advance_scope]
    · rfl

@[simp] theorem test_scope (code : Nat) (r : Reader) : (r.test source code).2.scope = r.scope := by
  simp only [test]
  split
  · exact advance_scope source r
  · rfl

theorem testCodes_scope (codes : List Nat) (r : Reader) : (testCodes source codes r).2.scope = r.scope := by
  induction codes generalizing r with
  | nil => rfl
  | cons code rest ih =>
    have tested := test_scope source code r
    simp only [testCodes]
    split
    · rename_i moved
      rw [moved] at tested
      rw [ih, tested]
    · rename_i stayed
      rwa [stayed] at tested

theorem testText_scope (text : Bytes) (r : Reader) : (testText source text r).2.scope = r.scope := by
  have tested := testCodes_scope source (codePoints text) r
  simp only [testText]
  split
  · rename_i moved
    rwa [moved] at tested
  · rename_i stayed
    rw [stayed] at tested
    change Scope.truncate _ r.scope.sizes = _
    rw [tested, Scope.truncate_sizes]

theorem remark_scope (r : Reader) (remark : Remark) : (r.remark remark).scope = r.scope := by
  simp only [Reader.remark]
  split <;> rfl

theorem restOfLine_scope (r : Reader) : (r.restOfLine source).2.scope = r.scope := by
  simp only [restOfLine]
  split <;> rfl

end Reader

def Reply.any {α : Type} (p : α → Reader → Bool) : Reply α → Bool
  | .ok value r => p value r
  | _ => false

theorem Reply.any_eq_true {α : Type} {p : α → Reader → Bool} {reply : Reply α} (any : reply.any p = true) :
    ∃ value r, reply = .ok value r ∧ p value r = true := by
  cases reply with
  | ok value r => exact ⟨value, r, rfl, any⟩
  | fail r => cases any
  | exhausted => cases any

end Cb
