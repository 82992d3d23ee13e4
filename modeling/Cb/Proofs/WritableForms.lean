import Cb.Proofs.OperatorGrammar

/-! Which forms of an operand can be written to. A cast makes a new node, and so does `&`, and neither node can be
written to. But both may also stand for a node inside of them: a cast to the type that its operand has anyway is the
operand, and the address of `*p` is `p`. These are the only casts and addresses that an assignment, an increment or a
decrement takes. -/

namespace Cb

namespace Build

variable {e : Expr} {pos : Position}

theorem writable_of_assign {scaling : Scaling} (made : binary scaling pos .assign left right = .ok e) : left.isWritable = true := by
  rw [binary, if_pos rfl, assign] at made
  split at made
  · cases made
  · next writable => simpa using writable

theorem writable_of_step (made : step pos target down = .ok e) :
    target.isWritable = true := by
  rw [step] at made
  split at made
  · cases made
  · simp_all

theorem cast_writable (made : cast nested target = .ok e) (writable : e.isWritable = true) :
    nested.ty = target ∧ e = nested := by
  rw [cast] at made
  split at made
  · cases made
    by_cases same : nested.ty = target
    · exact ⟨same, by rw [convert, if_pos same]⟩
    · rw [convert, if_neg same] at writable
      split at writable <;> cases writable
  · cases made

theorem addressOf_writable (made : addressOf pos nested = .ok e) (writable : e.isWritable = true) :
    ∃ info, nested = .deref info e 0 := by
  cases nested with
  | deref info address displacement =>
    simp only [addressOf] at made
    split at made
    · rename_i none
      cases made
      exact ⟨info, by rw [none]⟩
    · cases made
      cases writable
  | var info name offset =>
    cases made
    cases writable
  | _ => cases made

end Build

namespace OperatorTree

variable {scaling : Scaling} {e : Expr}

theorem build_node (made : (node top left right).build scaling = .ok e) :
    ∃ l r, left.build scaling = .ok l ∧ right.build scaling = .ok r ∧ Build.binary scaling top.pos top.op l r = .ok e := by
  cases leftMade : left.build scaling with
  | error error => simp [build, leftMade, bind, Except.bind] at made
  | ok l =>
    cases rightMade : right.build scaling with
    | error error => simp [build, leftMade, rightMade, bind, Except.bind] at made
    | ok r => exact ⟨l, r, rfl, rfl, by simpa [build, leftMade, rightMade, bind, Except.bind] using made⟩

theorem build_of_subtree {t s : OperatorTree} (member : s ∈ t.subtrees) (made : t.build scaling = .ok e) :
    ∃ part, s.build scaling = .ok part := by
  induction t generalizing e with
  | operand leaf =>
    rw [subtrees, List.mem_singleton] at member
    exact ⟨e, member ▸ made⟩
  | node top left right leftIh rightIh =>
    obtain ⟨l, r, leftMade, rightMade, _⟩ := build_node made
    rw [subtrees, List.mem_cons, List.mem_append] at member
    rcases member with rfl | inLeft | inRight
    · exact ⟨e, made⟩
    · exact leftIh inLeft leftMade
    · exact rightIh inRight rightMade

end OperatorTree

namespace Rule

variable {α β γ : Type} {env : Env} {n : Nat} {r after : Reader} {c : Checkpoint} {inner e : Expr}

theorem bind_assoc (rule : Rule α) (next : α → Rule β) (last : β → Rule γ) :
    (rule >>= next >>= last) = rule >>= fun value => next value >>= last := by
  funext env r
  simp only [bind_apply]
  cases rule env r <;> rfl

theorem built_ok {value : α} (ran : built tree c env r = .ok value after) :
    tree = .ok value ∧ after = r := by
  cases tree with
  | ok result =>
    cases ran
    exact ⟨rfl, rfl⟩
  | error error => cases ran

def castTarget (c : Checkpoint) : Rule Ty := do
  expect '(' c
  skip
  let target ← orRestore dataType c
  expect ')' c
  skip
  return target

def castOperand (n : Nat) : Rule Expr := do
  if (← peek) = '('.toNat then paren n else value n

def castTree (c : Checkpoint) (target : Ty) (inner : Expr) : Rule Expr := do
  let e ← built (Build.cast inner target) c
  if inner.isConstant && e.value ≠ inner.value then
    warn .truncation c.pos ("cast of constant " ++ Bytes.ofInt inner.value ++ " to " ++ target.text
      ++ " truncates it to " ++ Bytes.ofInt e.value)
  return e

theorem cast_eq (n : Nat) (env : Env) (r : Reader) :
    cast (n + 1) env r = (castTarget r.checkpoint >>= fun target =>
      orReject (castOperand n) r.checkpoint (.invalid "cast operand") >>= castTree r.checkpoint target) env r := by
  simp only [castTarget, bind_assoc]
  rfl

theorem castTree_ok (ran : castTree c target inner env r = .ok e after) : Build.cast inner target = .ok e := by
  obtain ⟨tree, middle, made, ran⟩ := bind_ok ran
  rw [(built_ok made).1]
  split at ran
  · obtain ⟨_, _, _, ran⟩ := bind_ok ran
    cases ran
    rfl
  · cases ran
    rfl

theorem cast_ok (ran : cast (n + 1) env r = .ok e after) :
    ∃ target middle inner behind, castTarget r.checkpoint env r = .ok target middle ∧
      castOperand n env middle = .ok inner behind ∧ Build.cast inner target = .ok e := by
  rw [cast_eq] at ran
  obtain ⟨target, middle, typed, ran⟩ := bind_ok ran
  obtain ⟨inner, behind, read, ran⟩ := bind_ok ran
  exact ⟨target, middle, inner, behind, typed, orReject_ok read, castTree_ok ran⟩

theorem reference_ok (ran : reference (n + 1) env r = .ok e after) :
    r.peek env.source = '&'.toNat ∧ ∃ inner behind,
      addressTarget n env ((r.advance env.source).skip env.source).2 = .ok inner behind ∧
        Build.addressOf r.pos inner = .ok e := by
  change (expect '&' r.checkpoint >>= fun _ => skip >>= fun _ => orReject (addressTarget n) r.checkpoint _ >>= _) env r = _
    at ran
  obtain ⟨_, _, sign, ran⟩ := bind_ok ran
  obtain ⟨isSign, rfl⟩ := expect_ok sign
  obtain ⟨_, _, skipped, ran⟩ := bind_ok ran
  cases skipped
  obtain ⟨inner, behind, read, ran⟩ := bind_ok ran
  exact ⟨isSign, inner, behind, orReject_ok read, (built_ok ran).1⟩

inductive Wrapper where
  | cast (target : Ty)
  | address

/-- The wrapper adds nothing: `e` is the tree that is cast, or the pointer that is dereferenced inside. -/
def Wrapper.IsIdle (inner e : Expr) : Wrapper → Prop
  | .cast target => inner.ty = target ∧ e = inner
  | .address => ∃ info, inner = .deref info e 0

/-- The text at a reader is a cast or an address, possibly in parentheses, with `inner` inside; `e` is the tree of all
of it. -/
inductive Wraps (env : Env) : Wrapper → Reader → Expr → Expr → Prop
  | cast {n : Nat} {r middle behind after : Reader} {target : Ty} {inner e : Expr}
      (typed : castTarget r.checkpoint env r = .ok target middle) (read : castOperand n env middle = .ok inner behind)
      (all : cast (n + 1) env r = .ok e after) : Wraps env (.cast target) r inner e
  | address {n : Nat} {r behind after : Reader} {inner e : Expr}
      (read : addressTarget n env ((r.advance env.source).skip env.source).2 = .ok inner behind)
      (all : reference (n + 1) env r = .ok e after) : Wraps env .address r inner e
  | paren {n : Nat} {r there behind last after : Reader} {wrapper : Wrapper} {inner e : Expr}
      (alone : ReadsRow env n ((r.advance env.source).skip env.source).2 e [] behind last)
      (inside : Wraps env wrapper there inner e) (here : there.pos = ((r.advance env.source).skip env.source).2.pos)
      (all : paren (n + 2) env r = .ok e after) : Wraps env wrapper r inner e

variable {wrapper : Wrapper} {start : Reader}

theorem Wraps.of_cast (ran : Rule.cast (n + 1) env r = .ok e after) : ∃ target inner, Wraps env (.cast target) r inner e := by
  obtain ⟨target, middle, inner, behind, typed, read, _⟩ := cast_ok ran
  exact ⟨target, inner, .cast typed read ran⟩

theorem Wraps.of_reference (ran : reference (n + 1) env r = .ok e after) : ∃ inner, Wraps env .address r inner e := by
  obtain ⟨_, inner, behind, read, _⟩ := reference_ok ran
  exact ⟨inner, .address read ran⟩

theorem Wraps.idle (wraps : Wraps env wrapper start nested e) (writable : e.isWritable = true) : wrapper.IsIdle nested e := by
  induction wraps with
  | cast typed read all =>
    obtain ⟨_, _, _, _, typedToo, readToo, made⟩ := cast_ok all
    obtain ⟨rfl, rfl⟩ := Reply.ok.inj (typed.symm.trans typedToo)
    obtain ⟨rfl, rfl⟩ := Reply.ok.inj (read.symm.trans readToo)
    exact Build.cast_writable made writable
  | address read all =>
    obtain ⟨_, _, _, readToo, made⟩ := reference_ok all
    obtain ⟨rfl, rfl⟩ := Reply.ok.inj (read.symm.trans readToo)
    exact Build.addressOf_writable made writable
  | paren alone inside here all ih => exact ih writable

/-- A cast or an address is written to only if it adds nothing to a writable tree inside. Any other assignment to it, and
any other step of it, is refused. -/
theorem wrapped_written_only_idle (wraps : Wraps env wrapper start inner e) :
    (∀ n r first steps behind last (tree : OperatorTree) top right, ReadsRow env n r first steps behind last →
      tree.Groups first steps → .node top (.operand e) right ∈ tree.subtrees → top.op = .assign →
      (wrapper.IsIdle inner e ∧ e.isWritable = true) ∨ ∃ after, expression (n + 1) env r = .fail after) ∧
    ∀ n r c down behind, value n env (r.skip env.source).2 = .ok e behind →
      (wrapper.IsIdle inner e ∧ e.isWritable = true) ∨ ∃ after, step (n + 1) c down env r = .fail after := by
  constructor
  · rintro n r first steps behind last tree ⟨op, pos⟩ right ⟨next, read, reads⟩ groups member rfl
    obtain rfl := (OperatorTree.groups_iff first reads.listed).mp groups
    have outcome := reads.outcome r.checkpoint first
    rw [← expression_of_operand read] at outcome
    rcases outcome with ⟨result, made, _⟩ | ⟨_, failed⟩
    · left
      obtain ⟨part, assigned⟩ := OperatorTree.build_of_subtree member made
      obtain ⟨_, _, isLeft, _, assigned⟩ := OperatorTree.build_node assigned
      cases isLeft
      have writable := Build.writable_of_assign assigned
      exact ⟨wraps.idle writable, writable⟩
    · exact .inr failed
  · intro n r c down behind read
    cases made : Build.step c.pos e down with
    | ok tree =>
      have writable := Build.writable_of_step made
      exact .inl ⟨wraps.idle writable, writable⟩
    | error error =>
      refine .inr ⟨behind.reject c (.build error), ?_⟩
      change Rule.bind (orReject (value n) c _) _ env (r.skip env.source).2 = _
      simp only [Rule.bind, orReject, read, made]
      rfl

theorem operand_of_cast (ran : cast n env r = .ok e after) : operand (n + 1) env r = .ok e after := by
  change orElse (cast n) _ env r = _
  simp only [orElse, ran]

def narrowed : Env where
  source := { lines := #["(byte) a = 5;"], origins := #["narrowed.cb"] }
  settings := {}

theorem wrapped_written_only_idle_narrowed :
    ∃ inner e steps behind last, ∃ (tree : OperatorTree) (top : Pending) (right : OperatorTree),
      Wraps narrowed (.cast .byte) twoNumbers inner e ∧ inner.ty = .int ∧
      ReadsRow narrowed 39 twoNumbers e steps behind last ∧ tree.Groups e steps ∧
      .node top (.operand e) right ∈ tree.subtrees ∧ top.op = .assign ∧
      ∃ after, expression 40 narrowed twoNumbers = .fail after := by
  have cast : (castTarget twoNumbers.checkpoint narrowed twoNumbers).any (fun target middle => target = .byte &&
      (castOperand 37 narrowed middle).any fun inner _ => inner.ty = .int) = true := by decide +kernel
  have row : (Rule.cast 38 narrowed twoNumbers).any (fun _ after =>
      (operator narrowed (after.skip narrowed.source).2).any fun op found => op = some .assign &&
      (operand 38 narrowed (found.skip narrowed.source).2).any fun _ next =>
      (operator narrowed (next.skip narrowed.source).2).any fun op _ => op = none) = true := by decide +kernel
  obtain ⟨target, middle, typed, operand⟩ := Reply.any_eq_true cast
  rw [Bool.and_eq_true, decide_eq_true_eq] at operand
  obtain ⟨rfl, operand⟩ := operand
  obtain ⟨inner, _, read, isInt⟩ := Reply.any_eq_true operand
  obtain ⟨e, after, all, row⟩ := Reply.any_eq_true row
  obtain ⟨op, found, sign, row⟩ := Reply.any_eq_true row
  rw [Bool.and_eq_true, decide_eq_true_eq] at row
  obtain ⟨rfl, row⟩ := row
  obtain ⟨five, next, readNext, row⟩ := Reply.any_eq_true row
  obtain ⟨op, last, ends, isNone⟩ := Reply.any_eq_true row
  rw [decide_eq_true_eq] at isInt isNone
  subst isNone
  have wraps : Wraps narrowed (.cast .byte) twoNumbers inner e := .cast typed read all
  have reads : ReadsSteps narrowed 39 after _ next _ := .step sign readNext (.done ends)
  have groups := (OperatorTree.groups_iff e reads.listed).mpr rfl
  refine ⟨inner, e, _, next, _, _, _, _, wraps, isInt, ⟨after, operand_of_cast all, reads⟩, groups, List.mem_cons_self, rfl, ?_⟩
  rcases (wrapped_written_only_idle wraps).1 _ _ _ _ _ _ _ _ _ ⟨after, operand_of_cast all, reads⟩ groups List.mem_cons_self rfl
    with idle | failed
  · rw [Wrapper.IsIdle, isInt] at idle
    exact absurd idle.1.1 (by decide)
  · exact failed

def pointerAgain : Env where
  source := { lines := #["&*p = q;"], origins := #["pointer.cb"] }
  settings := {}

def twoPointers : Reader :=
  { scope := { stack := [.slot "q" Ty.int.ref 2, .slot "p" Ty.int.ref 2, .slot savedBaseName .int 2, .functionMark] } }

def castAgain : Env where
  source := { lines := #["(int) a = 5;"], origins := #["cast.cb"] }
  settings := {}

theorem wrapped_written_again :
    (∃ inner e assigned after, Wraps pointerAgain .address twoPointers inner e ∧
      expression 40 pointerAgain twoPointers = .ok assigned after ∧ assigned.text = utf8 "(p = q)") ∧
    ∃ target inner e assigned after, Wraps castAgain (.cast target) twoNumbers inner e ∧
      expression 40 castAgain twoNumbers = .ok assigned after ∧ assigned.text = utf8 "(a = 5)" := by
  constructor
  · have address : (reference 38 pointerAgain twoPointers).any (fun _ _ => true) = true := by decide +kernel
    have assigns : (expression 40 pointerAgain twoPointers).any (fun e _ => e.text = utf8 "(p = q)") = true := by
      decide +kernel
    obtain ⟨e, _, read, _⟩ := Reply.any_eq_true address
    obtain ⟨assigned, after, ran, text⟩ := Reply.any_eq_true assigns
    obtain ⟨inner, wraps⟩ := Wraps.of_reference read
    exact ⟨inner, e, assigned, after, wraps, ran, of_decide_eq_true text⟩
  · have cast : (Rule.cast 38 castAgain twoNumbers).any (fun _ _ => true) = true := by decide +kernel
    have assigns : (expression 40 castAgain twoNumbers).any (fun e _ => e.text = utf8 "(a = 5)") = true := by
      decide +kernel
    obtain ⟨e, _, read, _⟩ := Reply.any_eq_true cast
    obtain ⟨assigned, after, ran, text⟩ := Reply.any_eq_true assigns
    obtain ⟨target, inner, wraps⟩ := Wraps.of_cast read
    exact ⟨target, inner, e, assigned, after, wraps, ran, of_decide_eq_true text⟩

end Rule

end Cb
