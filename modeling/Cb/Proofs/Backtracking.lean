import Cb.Proofs.Termination

/-! Backtracking is clean: a rule that fails leaves position and scope as they were, and a rule that
succeeds leaves in scope only what it is meant to leave there. -/

namespace Cb

def Reply.IsClean {α : Type} (env : Env) (n : Nat) (r : Reader) (success : α → Scope → Prop) : Reply α → Prop
  | .ok value after => success value after.scope
  | .fail after => after.pos = r.pos ∧ after.scope = r.scope
  | .exhausted => n < env.source.depth

def Stmt.Pushed (read : Stmt) (s t : Scope) : Prop :=
  ∃ pos entry, read = .declare pos entry ∧ t = { s with stack := entry.slots ++ s.stack } ∧
    entry.slots.length = if entry.array.isSome then 2 else 1

namespace Rule

def expressionRules (n : Nat) : List (Rule Expr) :=
  [expression n, operand n, paren n, value n, null, increment n, cast n, sizeOf, call n, arrayAccess n, namedVariable,
    literal, deref n, reference n]

def closedRules (n : Nat) (place : Place) : List (Rule Stmt) :=
  [block n place, breakLoop place, continueLoop place, assembly, branch n place, forLoop n place, whileLoop n place,
    loopBody n place, returnStatement n place, evaluation n]

structure BacktrackCleanly (env : Env) (n : Nat) : Prop where
  expressions : ∀ rule ∈ expressionRules n, ∀ r : Reader, (rule env r).IsClean env n r fun _ t => t = r.scope
  operator : ∀ r : Reader, ∃ found after, operator env r = .ok found after ∧ after.scope = r.scope ∧
    (found = none → after.pos = r.pos)
  dataType : ∀ r : Reader, (dataType env r).IsClean env n r fun _ t => t = r.scope
  closed : ∀ place, ∀ rule ∈ closedRules n place, ∀ r : Reader, (rule env r).IsClean env n r fun _ t => t = r.scope
  declaration : ∀ r : Reader, (declaration n env r).IsClean env n r fun read t => read.Pushed r.scope t
  statement : ∀ (place : Place) (r : Reader), (statement n place env r).IsClean env n r fun read t =>
    t = r.scope ∧ read.declares = [] ∨ read.Pushed r.scope t
  /-- A function that fails may have replaced its declaration in the table, which keeps its names. -/
  function : ∀ r : Reader, match function n env r with
    | .ok _ after => after.scope.AddsFunction r.scope
    | .fail after => after.pos = r.pos ∧ after.scope.sizes = r.scope.sizes ∧ after.scope.Resembles r.scope
    | .exhausted => n < env.source.depth

variable {α : Type} {env : Env} {n : Nat} {grows : α → Scope → Scope → Prop} {spent : Position → Prop} {rule : Rule α}

theorem Settles.isClean (settles : Settles env grows spent rule) (r : Reader)
    (grown : ∀ value t, grows value r.scope t → success value t) (bounded : spent r.pos → n < env.source.depth) :
    (rule env r).IsClean env n r success := by
  have outcome := settles r
  generalize rule env r = reply at outcome ⊢
  cases reply with
  | ok value after => exact grown value after.scope outcome.2
  | fail after => exact outcome
  | exhausted => exact bounded outcome

theorem Stalls.count_lt (stalls : Stalls env n pos) : n < env.source.depth := by
  obtain ⟨there, _, ran⟩ := stalls
  exact Call.count_lt_depth ran

theorem slots_length (entry : Declaration) : entry.slots.length = if entry.array.isSome then 2 else 1 := by
  cases array : entry.array <;> simp [Declaration.slots, array]

theorem Declared.pushed {read : Stmt} (declared : Declared read s t) : read.Pushed s t := by
  obtain ⟨grown, ⟨pos, entry, rfl⟩, _⟩ := declared
  refine ⟨pos, entry, rfl, ?_, slots_length entry⟩
  rw [grown]
  simp [Scope.grow, Stmt.declares]

theorem Grown.cases {read : Stmt} (grown : Grown place read s t) :
    t = s ∧ read.declares = [] ∨ read.Pushed s t := by
  obtain ⟨rfl, _⟩ := grown
  cases read with
  | declare pos entry => exact .inr ⟨pos, entry, rfl, by simp [Scope.grow, Stmt.declares], slots_length entry⟩
  | _ => exact .inl ⟨rfl, rfl⟩

theorem expressionRules_settle (env : Env) (n : Nat) :
    ∀ rule ∈ expressionRules n, Settles env Kept (fun _ => n < env.source.depth) rule := by
  have reads := expressionsSettle env n
  have bounded {callee : Call} {rule : Rule Expr} (settles : Settles env (Yields Offered) (callee.exhaustsAt env n) rule) :
      Settles env Kept (fun _ => n < env.source.depth) rule :=
    settles.imp (fun _ _ _ => And.left) fun _ => Call.count_lt_depth
  have never {rule : Rule Expr} (settles : Settles env (Yields Offered) Never rule) :
      Settles env Kept (fun _ => n < env.source.depth) rule :=
    settles.imp (fun _ _ _ => And.left) fun _ => False.elim
  simp only [expressionRules, List.forall_mem_cons]
  exact ⟨bounded reads.expression, bounded reads.operand, bounded reads.paren, bounded reads.value, never null_settles,
    bounded reads.increment, bounded reads.cast, never sizeOf_settles, bounded reads.call, bounded reads.arrayAccess,
    never namedVariable_settles, never literal_settles, bounded reads.deref, bounded reads.reference, nofun⟩

theorem closedRules_settle (env : Env) (n : Nat) (place : Place) :
    ∀ rule ∈ closedRules n place, Settles env Kept (fun _ => n < env.source.depth) rule := by
  have states := statementsSettle env n
  have bounded {callee : Call} {rule : Rule Stmt} (settles : Settles env (Closed place) (callee.exhaustsAt env n) rule) :
      Settles env Kept (fun _ => n < env.source.depth) rule :=
    settles.imp (fun _ _ _ => And.left) fun _ => Call.count_lt_depth
  have never {rule : Rule Stmt} (settles : Settles env (Closed place) Never rule) :
      Settles env Kept (fun _ => n < env.source.depth) rule :=
    settles.imp (fun _ _ _ => And.left) fun _ => False.elim
  have returns : Settles env Kept (fun _ => n < env.source.depth) (returnStatement n place) :=
    (returnStatement_settles place).imp (fun _ _ _ => And.left) fun _ => Stalls.count_lt
  have looped : Settles env Kept (fun _ => n < env.source.depth) (loopBody n place) :=
    (states.loopBody place).imp (fun _ _ _ => And.left) fun _ => Call.count_lt_depth
  simp only [closedRules, List.forall_mem_cons]
  exact ⟨bounded (states.block place), never (breakLoop_settles place), never (continueLoop_settles place),
    never (assembly_settles place), bounded (states.branch place), bounded (states.forLoop place),
    bounded (states.whileLoop place), looped, returns, bounded (evaluation_settles place), nofun⟩

/-- A rule that fails goes back to where it started and leaves no names behind, and one that succeeds leaves only those that
its construct declares. A count can run out only below the depth of the source. -/
theorem rules_backtrack_cleanly (env : Env) (n : Nat) : BacktrackCleanly env n where
  expressions rule member r := (expressionRules_settle env n rule member).isClean r (fun _ _ => id) id
  operator r := by
    obtain ⟨found, after, ran, kept, outcome⟩ := operator_picks env r
    refine ⟨found, after, ran, kept, ?_⟩
    rintro rfl
    exact outcome
  dataType r := dataType_settles.isClean r (fun _ _ => id) False.elim
  closed place rule member r := (closedRules_settle env n place rule member).isClean r (fun _ _ => id) id
  declaration r := declaration_settles.isClean r (fun _ _ => Declared.pushed) Stalls.count_lt
  statement place r := ((statementsSettle env n).statement place).isClean r (fun _ _ => Grown.cases) Call.count_lt_depth
  function r := by
    have outcome := function_reads env n r
    cases ran : function n env r with
    | ok value after =>
      rw [ran] at outcome
      exact outcome.2
    | fail after =>
      rw [ran] at outcome
      exact ⟨outcome.1, outcome.2.sizes_eq, outcome.2⟩
    | exhausted => exact function_count_lt ran

end Rule

end Cb
