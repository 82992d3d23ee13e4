import Cb.Proofs.Attempts
import Cb.Proofs.RuleParts
import Cb.Proofs.Typing

/-! Calls among the rules, and the rules for expressions: each of them gets on or is undone, leaves the
scope alone, reads a tree that is built from the names in it, and calls others only at a later position or in a lower
rank. -/

namespace Cb

structure Scope.Offers (s : Scope) (known : Vocabulary) : Prop where
  types : s.types = Ty.builtins
  names : ∀ {word : Bytes} {v : Variable}, s.findVariable? (lower word) = some v →
    known.names (lower word) v.ty v.offset
  callees : ∀ {name : Bytes} {f : Function}, s.findFunction? name = some f → known.callees f.toSignature

/-- A rule that counts down, with its arguments. -/
inductive Call where
  | stars
  | expression
  | operations (c : Checkpoint) (pending : List Rule.Pending) (values : List Expr)
  | operand
  | paren
  | value
  | increment
  | step (c : Checkpoint) (down : Bool)
  | cast
  | call
  | arguments (c : Checkpoint)
  | arrayAccess
  | deref
  | reference
  | statement (place : Rule.Place)
  | block (place : Rule.Place)
  | items (place : Rule.Place) (c : Checkpoint) (terminated warned : Bool)
  | branch (place : Rule.Place)
  | loopBody (place : Rule.Place)
  | whileLoop (place : Rule.Place)
  | forLoop (place : Rule.Place)
  | assemblyLines (c : Checkpoint)
  | params (c : Checkpoint) (seen : List Bytes)

namespace Call

def Result : Call → Type
  | .stars => Nat
  | .expression | .operations .. | .operand | .paren | .value | .increment | .step .. | .cast | .call | .arrayAccess
  | .deref | .reference => Expr
  | .arguments _ => List Expr
  | .statement _ | .block _ | .branch _ | .loopBody _ | .whileLoop _ | .forLoop _ => Stmt
  | .items .. => List Stmt
  | .assemblyLines _ => List Bytes
  | .params .. => List Param × Bool

def rule (n : Nat) : (which : Call) → Rule which.Result
  | .stars => Rule.stars n
  | .expression => Rule.expression n
  | .operations c pending values => Rule.operations n c pending values
  | .operand => Rule.operand n
  | .paren => Rule.paren n
  | .value => Rule.value n
  | .increment => Rule.increment n
  | .step c down => Rule.step n c down
  | .cast => Rule.cast n
  | .call => Rule.call n
  | .arguments c => Rule.arguments n c
  | .arrayAccess => Rule.arrayAccess n
  | .deref => Rule.deref n
  | .reference => Rule.reference n
  | .statement place => Rule.statement n place
  | .block place => Rule.block n place
  | .items place c terminated warned => Rule.items n place c terminated warned
  | .branch place => Rule.branch n place
  | .loopBody place => Rule.loopBody n place
  | .whileLoop place => Rule.whileLoop n place
  | .forLoop place => Rule.forLoop n place
  | .assemblyLines c => Rule.assemblyLines c n
  | .params c seen => Rule.params c n seen

def exhausts (env : Env) (n : Nat) (r : Reader) (which : Call) : Prop := which.rule n env r = .exhausted

def rank (brace : Bool) : Call → Nat
  | .value => 1
  | .operand | .step .. => 2
  | .expression => 3
  | .arguments _ => 4
  | .statement _ => if brace then 1 else 4
  | .block _ => if brace then 0 else 5
  | .items .. | .loopBody _ => 6
  | _ => 0

def exhaustsAt (env : Env) (n : Nat) (which : Call) (pos : Position) : Prop :=
  ∃ r : Reader, r.pos = pos ∧ which.exhausts env n r

end Call

def Source.opensAt (source : Source) (pos : Position) : Bool := Reader.peek source { pos } = '\x7b'.toNat

/-- A call may lead to another one: at a later position, or at the same one in a lower rank. -/
def Call.Below (source : Source) (callee : Call) (there : Position) (caller : Call) (here : Position) : Prop :=
  source.Later here there ∨ there = here ∧ callee.rank (source.opensAt here) < caller.rank (source.opensAt here)

def Call.Blames (env : Env) (n : Nat) (caller : Call) (here : Position) : Prop :=
  ∃ callee there, Call.Below env.source callee there caller here ∧ callee.exhaustsAt env n there

namespace Call.Blames

variable {env : Env} {n : Nat} {caller callee : Call} {here there : Position}

theorem later (later : env.source.Later here there) (ran : callee.exhaustsAt env n there) : caller.Blames env n here :=
  ⟨callee, there, Or.inl later, ran⟩

theorem lower (ahead : env.source.Ahead here there)
    (lower : callee.rank (env.source.opensAt here) < caller.rank (env.source.opensAt here))
    (ran : callee.exhaustsAt env n there) : caller.Blames env n here := by
  rcases ahead with same | later
  · exact ⟨callee, there, .inr ⟨same, lower⟩, ran⟩
  · exact .later later ran

end Call.Blames

namespace Rule

variable {α : Type} {env : Env} {n : Nat}

def Never (_ : Position) : Prop := False

def GetsOn (env : Env) (n : Nat) (self : Call) (pos : Position) : Prop :=
  ∃ there, env.source.Later pos there ∧ self.exhaustsAt env n there

theorem GetsOn.blames (getsOn : GetsOn env n self pos) : self.Blames env n pos := by
  obtain ⟨there, later, ran⟩ := getsOn
  exact .later later ran

theorem stars_step (ih : Follows env c Kept (Call.stars.exhaustsAt env n) (stars n)) :
    Follows env c Kept (GetsOn env n .stars) (stars (n + 1)) := by
  refine .start fun o s _ exhausts => ?_
  refine .choose nofun (.skipped ?_) (.pure rfl)
  exact .followed ih (fun pos later ran => exhausts ⟨pos, later, ran⟩) fun _ _ kept => .pure kept

theorem stars_follows (env : Env) (c : Checkpoint) (n : Nat) : Follows env c Kept (Call.stars.exhaustsAt env n) (stars n) := by
  induction n with
  | zero => exact fun r => ⟨r, rfl, rfl⟩
  | succ n ih => exact (stars_step ih).self

theorem stars_le_remaining (ran : Call.stars.exhaustsAt env n pos) : n ≤ env.source.remaining pos := by
  refine Source.rounds_le_remaining (fun n => Call.stars.exhaustsAt env n) (fun n p ran => ?_) ran
  obtain ⟨r, rfl, ran⟩ := ran
  exact (stars_step (stars_follows env r.checkpoint n)).spent_of ran

theorem dataType_yields : Settles env (Yields fun ty s => s.types = Ty.builtins → ty.IsNamed) Never dataType := by
  refine .start fun c o s _ _ exhausts => ?_
  refine .word .reject fun found nonempty _ => ?_
  rw [if_neg (by simpa using nonempty)]
  refine .scope ?_
  split
  · exact .reject
  · rename_i ty known
    refine .skipped <| .sourceSize ?_
    refine .followed (stars_follows env c _) (fun pos _ ran => ?_) fun depth _ kept => .pure ⟨rfl, kept, ?_⟩
    · have enough := stars_le_remaining ran
      have fewer := env.source.remaining_le_size pos
      omega
    · intro types
      have listed : ty ∈ Ty.builtins := types ▸ List.mem_of_find?_eq_some known
      simp only [Ty.builtins, List.mem_cons, List.not_mem_nil, or_false] at listed
      rcases listed with rfl | rfl | rfl
      · exact .inl rfl
      · exact .inr (.inl rfl)
      · exact .inr (.inr rfl)

theorem dataType_settles : Settles env Kept Never dataType := dataType_yields.kept

def Picks {c : Checkpoint} (o : Attempt env c) (moved : Bool) (s : Scope) (rule : Rule (Option Operator)) : Prop :=
  ∀ r : Reader, o.At moved r.pos → r.scope = s → ∃ found after, rule env r = .ok found after ∧
    (∀ op ∈ found, op ∈ Operator.all) ∧ if found.isSome then o.At true after.pos ∧ after.scope = s else o.Back after

namespace Picks

variable {c : Checkpoint} {o : Attempt env c} {moved : Bool} {s : Scope}

theorem found (op : Operator) (listed : Operator.all.contains op = true) : Picks o true s (pure (some op)) :=
  fun r here same => ⟨some op, r, rfl, by simpa using listed, here, same⟩

theorem nothing [undoes : o.Undoes s] : Picks o moved s (operator.none? c) := by
  rintro r here rfl
  exact ⟨none, _, rfl, nofun, undoes.reject here _⟩

theorem choose {character : Char} (proper : character.toNat ≠ endOfFile) (found : Picks o true s yes)
    (missing : Picks o moved s no) :
    Picks o moved s (test character >>= fun next => if next = true then yes else no) := by
  rintro r here rfl
  rw [choose_apply]
  split
  · rename_i next
    exact found _ (here.later (Reader.advance_later (next ▸ proper))) (Reader.advance_scope _ r)
  · exact missing r here rfl

theorem start (picks : ∀ (c : Checkpoint) (o : Attempt env c) (s : Scope) [o.Undoes s], Picks o false s (body c))
    (r : Reader) :
    ∃ found after, (checkpoint >>= body) env r = .ok found after ∧ (∀ op ∈ found, op ∈ Operator.all) ∧
      after.scope = r.scope ∧ if found.isSome then env.source.Later r.pos after.pos else after.pos = r.pos := by
  obtain ⟨found, after, ran, listed, outcome⟩ :=
    picks _ (ownAttempt env r False) r.scope r (Source.Ahead.refl r.pos) rfl
  refine ⟨found, after, ran, listed, ?_⟩
  by_cases present : found.isSome = true
  · rw [if_pos present] at outcome ⊢
    exact ⟨outcome.2, outcome.1⟩
  · rw [if_neg present] at outcome ⊢
    exact ⟨outcome.2, outcome.1 (.refl _)⟩

end Picks

theorem operator_finds (env : Env) (r : Reader) : ∃ found after, operator env r = .ok found after ∧
    (∀ op ∈ found, op ∈ Operator.all) ∧ after.scope = r.scope ∧
      if found.isSome then env.source.Later r.pos after.pos else after.pos = r.pos := by
  refine Picks.start (fun c o s _ => ?_) r
  refine .choose nofun (.found .add rfl) <| .choose nofun (.found .subtract rfl) <| .choose nofun (.found .multiply rfl) <|
    .choose nofun (.found .divide rfl) <| .choose nofun (.found .modulo rfl) <| .choose nofun ?_ <| .choose nofun ?_ <|
    .choose nofun ?_ <| .choose nofun ?_ <| .choose nofun (.found .or rfl) <| .choose nofun (.found .xor rfl) <|
    .choose nofun (.found .and rfl) .nothing
  · exact .choose nofun (.found .greaterEqual rfl) <| .choose nofun (.found .shiftRight rfl) (.found .greater rfl)
  · exact .choose nofun (.found .lessEqual rfl) <| .choose nofun (.found .shiftLeft rfl) (.found .less rfl)
  · exact .choose nofun (.found .equal rfl) (.found .assign rfl)
  · exact .choose nofun (.found .notEqual rfl) .nothing

theorem operator_picks (env : Env) (r : Reader) : ∃ found after, operator env r = .ok found after ∧
    after.scope = r.scope ∧ if found.isSome then env.source.Later r.pos after.pos else after.pos = r.pos := by
  obtain ⟨found, after, ran, _, outcome⟩ := operator_finds env r
  exact ⟨found, after, ran, outcome⟩

theorem Runs.operator {β : Type} {o : Attempt env c} {success : β → Bool → Scope → Prop}
    {next : Option Operator → Rule β} (found : ∀ op, op ∈ Operator.all → Runs o true s (next (some op)) success)
    (missing : Runs o moved s (next none) success) : Runs o moved s (operator >>= next) success := by
  rintro r here rfl
  obtain ⟨incoming, after, ran, listed, kept, outcome⟩ := operator_finds env r
  simp only [bind_apply, ran]
  cases incoming with
  | some op => exact found op (listed op rfl) after (here.later outcome) kept
  | none =>
    have back : after.pos = r.pos := outcome
    exact missing after (back ▸ here) kept

def Offered (e : Expr) (s : Scope) : Prop := ∀ known : Vocabulary, s.Offers known → Built known e

abbrev SettlesTree (env : Env) (spent : Position → Prop) (rule : Rule Expr) : Prop :=
  Settles env (Yields Offered) spent rule

theorem null_settles : SettlesTree env Never null := by
  refine .start fun c o s _ _ _ => ?_
  exact .spelled (by decide) <| .pure ⟨rfl, rfl, fun _ _ => .literal _ _ (by decide)⟩

theorem namedVariable_settles : SettlesTree env Never namedVariable := by
  refine .start fun c o s _ _ _ => ?_
  refine .word .reject fun found nonempty _ => ?_
  dsimp only
  split
  · exact .reject
  · refine .scope ?_
    split
    · exact .reject
    · rename_i v named
      refine .marked fun mark there own => .skipped <| .after .peek fun code => ?_
      split
      · exact .reject
      · exact .restored there own <| .pure ⟨rfl, rfl, fun _ offers => .var _ (offers.names named)⟩

theorem sizeOf_settles : SettlesTree env Never sizeOf := by
  refine .start fun c o s _ _ exhausts => ?_
  refine .spelled (by decide) <| .spaced nofun <| .skipped ?_
  refine .bind (.orElse dataType_settles.map .never (fun _ _ kept => ⟨rfl, kept⟩)
    (?_ : Runs o true s _ fun _ further t => further = true ∧ t = s)) fun size further t reached => ?_
  · refine .scope <| .after .word fun found => ?_
    split
    · exact .reject
    · exact .skipped <| .pure ⟨rfl, rfl⟩
  · obtain ⟨rfl, rfl⟩ := reached
    exact .expected nofun <| .pure ⟨rfl, rfl, fun _ _ => .literal _ _ (by decide)⟩

theorem character_follows (c : Checkpoint) : Follows env c Kept Never (character c) := by
  refine .start fun o s _ _ => ?_
  refine .after .advance fun code => ?_
  dsimp only
  split
  · refine .after .advance fun escape => ?_
    split
    · exact .expected nofun (.pure rfl)
    · exact .rejected
  · exact .expected nofun (.pure rfl)

theorem Onward.digit? : Onward digit? := by
  refine Onward.peek.bind fun code => ?_
  split
  · exact Onward.advance.bind fun _ => .pure _
  · exact .pure _

theorem digits_follows (c : Checkpoint) (room : Nat) (number : Int) : Follows env c Kept Never (digits c room number) := by
  induction room generalizing number with
  | zero =>
    refine .start fun o s _ _ => .after .digit? fun found => ?_
    cases found with
    | some digit => exact .reject
    | none => exact .pure rfl
  | succ room ih =>
    refine .start fun o s _ exhausts => .after .digit? fun found => ?_
    cases found with
    | some digit => exact .followLast (ih _) (fun _ _ never => exhausts never)
    | none => exact .pure rfl

theorem digit?_apply (env : Env) (r : Reader) : digit? env r =
    if isDigit (r.peek env.source) = true then .ok (some (r.peek env.source - 48)) (r.advance env.source)
    else .ok none r := by
  change (if isDigit (r.peek env.source) = true then (_ : Rule (Option Nat)) else _) env r = _
  split <;> rfl

theorem Runs.number {β : Type} {o : Attempt env c} {success : β → Bool → Scope → Prop} {room : Nat}
    {next : Int → Rule β} {other : Rule β} (second : ∀ magnitude, Runs o true s (next magnitude) success)
    (otherwise : Runs o moved s other success) [undoes : o.Undoes s] :
    Runs o moved s (peek >>= fun code => if isDigit code = true then digits c (room + 1) 0 >>= next else other)
      success := by
  rintro r here rfl
  change ((if isDigit (r.peek env.source) = true then digits c (room + 1) 0 >>= next else other) env r).Fits o success
  by_cases digit : isDigit (r.peek env.source) = true
  · have more : r.peek env.source ≠ endOfFile := by
      intro ended
      rw [ended] at digit
      exact absurd digit (by decide)
    have rest : Runs o true r.scope (digits c room (0 * 10 + (r.peek env.source - 48 : Nat)) >>= next) success := by
      refine .followed (digits_follows c room _) .never fun magnitude t kept => ?_
      exact kept.symm ▸ second magnitude
    have first : digits c (room + 1) 0 env r = digits c room (0 * 10 + (r.peek env.source - 48 : Nat)) env
        (r.advance env.source) := by
      change Rule.bind digit? _ env r = _
      simp only [Rule.bind, digit?_apply, if_pos digit]
    have outcome := rest (r.advance env.source) (here.later (Reader.advance_later more)) (Reader.advance_scope _ r)
    rw [if_pos digit]
    simp only [bind_apply, first]
    exact outcome
  · rw [if_neg digit]
    exact otherwise r here rfl

theorem number_built (pos : Position) (value : Int) : Built known (Build.number pos value) := by
  simp only [Build.number]
  split
  · exact .literal _ _ (by decide)
  · exact .literal _ _ (by decide)

theorem literal_settles : SettlesTree env Never literal := by
  refine .start fun c o s _ _ exhausts => ?_
  refine .after (.test _) fun negative => .choose nofun ?_ (.number ?_ .reject)
  · exact .followed (character_follows c) .never
      fun code t kept => .pure ⟨rfl, kept, fun _ _ => number_built _ _⟩
  · intro magnitude
    generalize (if negative = true then -magnitude else magnitude) = number
    by_cases outside : (number < -32768 || 65535 < number) = true
    · simp only [outside]
      exact .reject
    · simp only [outside]
      exact .pure ⟨rfl, rfl, fun _ _ => number_built _ _⟩

section

variable {grows : α → Scope → Scope → Prop} {caller callee : Call} {rule : Rule α}

theorem Settles.under (settles : Settles env grows (callee.exhaustsAt env n) rule)
    (lower : ∀ {brace : Bool}, callee.rank brace < caller.rank brace := by simp [Call.rank]) : Settles env grows (caller.Blames env n) rule :=
  settles.imp (fun _ _ _ => id) fun _ ran => .lower (.refl _) lower ran

theorem Settles.somewhere (settles : Settles env grows (callee.exhaustsAt env n) rule) :
    Settles env grows (fun pos => ∃ callee : Call, callee.exhaustsAt env n pos) rule :=
  settles.imp (fun _ _ _ => id) fun _ ran => ⟨callee, ran⟩

end

section

variable {c : Checkpoint} {o : Attempt env c} {caller callee : Call}

theorem laterCall (exhausts : caller.Blames env n o.entry → o.spent) :
    o.Covers true (callee.exhaustsAt env n) :=
  fun _ later ran => exhausts (.later later ran)

theorem lowerCall (exhausts : caller.Blames env n o.entry → o.spent)
    (lower : callee.rank (env.source.opensAt o.entry) < caller.rank (env.source.opensAt o.entry) := by simp [Call.rank]) :
    o.Covers false (callee.exhaustsAt env n) :=
  fun _ ahead ran => exhausts (.lower ahead lower ran)

end

def OfferedAfter (pending : List Pending) (values : List Expr) (e : Expr) (s : Scope) : Prop :=
  ∀ known : Vocabulary, s.Offers known → (∀ p ∈ pending, p.op ∈ Operator.all) → (∀ e ∈ values, Built known e) →
    Built known e

def AllOffered (es : List Expr) (s : Scope) : Prop := ∀ e ∈ es, Offered e s

structure ExpressionsSettle (env : Env) (n : Nat) : Prop where
  expression : SettlesTree env (Call.expression.exhaustsAt env n) (expression n)
  operations : ∀ c pending values, Follows env c (Yields (OfferedAfter pending values))
    ((Call.operations c pending values).exhaustsAt env n) (operations n c pending values)
  operand : SettlesTree env (Call.operand.exhaustsAt env n) (operand n)
  paren : SettlesTree env (Call.paren.exhaustsAt env n) (paren n)
  value : SettlesTree env (Call.value.exhaustsAt env n) (value n)
  increment : SettlesTree env (Call.increment.exhaustsAt env n) (increment n)
  step : ∀ c down, Follows env c (Yields Offered) ((Call.step c down).exhaustsAt env n) (step n c down)
  cast : SettlesTree env (Call.cast.exhaustsAt env n) (cast n)
  call : SettlesTree env (Call.call.exhaustsAt env n) (call n)
  arguments : ∀ c, Follows env c (Yields AllOffered) ((Call.arguments c).exhaustsAt env n) (arguments n c)
  arrayAccess : SettlesTree env (Call.arrayAccess.exhaustsAt env n) (arrayAccess n)
  deref : SettlesTree env (Call.deref.exhaustsAt env n) (deref n)
  reference : SettlesTree env (Call.reference.exhaustsAt env n) (reference n)

theorem applyPending_built {scaling : Scaling} (listed : ∀ p ∈ pending, p.op ∈ Operator.all)
    (inner : ∀ e ∈ values, Built known e)
    (applied : applyPending scaling incoming pending values = .ok (rest, results)) :
    (∀ p ∈ rest, p.op ∈ Operator.all) ∧ ∀ e ∈ results, Built known e := by
  induction pending generalizing values with
  | nil =>
    cases applied
    exact ⟨nofun, inner⟩
  | cons top pending ih =>
    simp only [applyPending] at applied
    split at applied
    · split at applied
      · rename_i right left others
        simp only [bind, Except.bind] at applied
        split at applied
        · cases applied
        · rename_i e made
          refine ih (fun p member => listed p (by simp [member])) ?_ applied
          intro other member
          rcases List.mem_cons.mp member with rfl | old
          · exact .binary (inner left (by simp)) (inner right (by simp)) (listed top (by simp)) made
          · exact inner other (by simp [old])
      · cases applied
        exact ⟨nofun, inner⟩
    · cases applied
      exact ⟨listed, inner⟩

variable (reads : ExpressionsSettle env n)

include reads

theorem expression_step : SettlesTree env (Call.expression.Blames env n) (expression (n + 1)) := by
  refine .start fun c o s _ _ exhausts => ?_
  refine .read reads.operand (lowerCall exhausts)
    fun first offered => ?_
  refine (Runs.follow (reads.operations _ _ _) (laterCall exhausts)).imp fun e _ t found => ?_
  exact ⟨found.1, found.2.1, fun known offers => found.2.2 known offers nofun (by simpa using offered known offers)⟩

theorem operations_step (c : Checkpoint) (pending : List Pending) (values : List Expr) :
    Follows env c (Yields (OfferedAfter pending values)) ((Call.operations c pending values).Blames env n)
      (operations (n + 1) c pending values) := by
  refine .start fun o s _ exhausts => ?_
  refine .marked fun mark there own => .skipped <| .after .position fun pos => .operator (fun op listed => ?_) ?_
  · refine .after .scaling fun scaling => .whenBuilt fun both applied => .skipped ?_
    refine .read reads.operand (laterCall exhausts) fun next offered => ?_
    refine (Runs.followLast (reads.operations _ _ _) (laterCall exhausts)).imp fun e _ t found => ?_
    refine ⟨found.1, fun known offers proper inner => ?_⟩
    obtain ⟨others, results⟩ := applyPending_built proper inner applied
    exact found.2 known offers (List.forall_mem_cons.mpr ⟨listed, others⟩)
      (List.forall_mem_cons.mpr ⟨offered known offers, results⟩)
  · refine .after .scaling fun scaling => .whenBuilt fun both applied => .restored there own ?_
    obtain ⟨remaining, results⟩ := both
    cases results with
    | cons e others =>
      exact .pure ⟨rfl, fun known _ proper inner => (applyPending_built proper inner applied).2 e (by simp)⟩
    | nil => exact .fails

theorem operand_step : SettlesTree env (Call.operand.Blames env n) (operand (n + 1)) := by
  refine .orElse (reads.cast.under) <| .peeked fun code => ?_
  split
  · exact reads.paren.under
  · exact reads.value.under

theorem paren_step : SettlesTree env (Call.paren.Blames env n) (paren (n + 1)) := by
  refine .start fun c o s _ _ exhausts => ?_
  refine .expected nofun <| .skipped ?_
  refine .read reads.expression (laterCall exhausts) fun e offered => ?_
  exact .spaced nofun <| .pure ⟨rfl, rfl, offered⟩

theorem value_step : SettlesTree env (Call.value.Blames env n) (value (n + 1)) := by
  have never {rule : Rule Expr} (settles : SettlesTree env Never rule) :
      SettlesTree env (Call.value.Blames env n) rule :=
    settles.imp (fun _ _ _ => id) fun _ => False.elim
  refine .orElse (never null_settles) <| .orElse (reads.increment.under) <|
    .orElse (reads.cast.under) <| .orElse (never sizeOf_settles) <|
    .orElse (reads.call.under) <| .orElse (reads.arrayAccess.under) <|
    .orElse (never namedVariable_settles) <| .orElse (never literal_settles) <|
    .orElse (reads.deref.under) <| .orElse (reads.reference.under) ?_
  exact fun r => ⟨Reader.note_pos r _, Reader.note_scope r _⟩

theorem increment_step : SettlesTree env (Call.increment.Blames env n) (increment (n + 1)) := by
  refine .start fun c o s _ _ exhausts => ?_
  refine .chooseText (by decide) ?_ <| .chooseText (by decide) ?_ .fails
  · exact .follow (reads.step c false) (laterCall exhausts)
  · exact .follow (reads.step c true) (laterCall exhausts)

theorem step_step (c : Checkpoint) (down : Bool) :
    Follows env c (Yields Offered) ((Call.step c down).Blames env n) (step (n + 1) c down) := by
  refine .start fun o s _ exhausts => ?_
  refine .skipped ?_
  refine .read reads.value (lowerCall exhausts)
    fun target offered => ?_
  exact .built fun _ made => ⟨rfl, fun known offers => .step (offered known offers) made⟩

theorem cast_step : SettlesTree env (Call.cast.Blames env n) (cast (n + 1)) := by
  refine .start fun c o s _ _ exhausts => ?_
  refine .expected nofun <| .skipped ?_
  refine .readSilently dataType_yields .never fun target named => ?_
  refine .expected nofun <| .skipped ?_
  have operand : SettlesTree env (fun pos => ∃ callee : Call, callee.exhaustsAt env n pos)
      (do if (← peek) = '('.toNat then paren n else value n) := by
    refine .peeked fun code => ?_
    split
    · exact reads.paren.somewhere
    · exact reads.value.somewhere
  refine .read operand (fun _ later ⟨_, ran⟩ => exhausts (.later later ran)) fun inner offered => ?_
  refine .whenBuilt fun e made => ?_
  have result : Offered e s := fun known offers => .cast (offered known offers) (named offers.types) made
  split
  · exact .after (.warn _ _ _) fun _ => .pure ⟨rfl, rfl, result⟩
  · exact .pure ⟨rfl, rfl, result⟩

theorem call_step : SettlesTree env (Call.call.Blames env n) (call (n + 1)) := by
  refine .start fun c o s _ _ exhausts => ?_
  refine .word .reject fun found _ _ => ?_
  dsimp only
  split
  · exact .reject
  · refine .expected nofun <| .skipped ?_
    refine .chooseThen nofun (.pure ⟨rfl, rfl, List.forall_mem_nil _⟩)
      (.follow (reads.arguments c) (laterCall exhausts)) fun arguments further t reached => ?_
    obtain ⟨rfl, rfl, offered⟩ := reached
    refine .scope ?_
    split
    · exact .reject
    · rename_i callee known
      exact .built fun _ made => ⟨rfl, rfl, fun vocabulary offers =>
        .call (offers.callees known) (fun e given => offered e given vocabulary offers) made⟩

theorem arguments_step (c : Checkpoint) :
    Follows env c (Yields AllOffered) ((Call.arguments c).Blames env n) (arguments (n + 1) c) := by
  refine .start fun o s _ exhausts => ?_
  refine .skipped ?_
  refine .read reads.expression (lowerCall exhausts)
    fun e offered => ?_
  refine .skipped <| .choose nofun ?_ (.expected nofun <| .pure ⟨rfl, ?_⟩)
  · exact .followed (reads.arguments c) (laterCall exhausts)
      fun arguments t others => .pure ⟨others.1, List.forall_mem_cons.mpr ⟨offered, others.2⟩⟩
  · exact List.forall_mem_singleton.mpr offered

theorem arrayAccess_step : SettlesTree env (Call.arrayAccess.Blames env n) (arrayAccess (n + 1)) := by
  refine .start fun c o s _ _ exhausts => ?_
  refine .readSilently namedVariable_settles .never fun base isBase => ?_
  refine .spaced nofun <| .skipped ?_
  refine .read reads.expression (laterCall exhausts) fun index isIndex => ?_
  refine .spaced nofun <| .after .scaling fun _ => ?_
  exact .built fun _ made =>
    ⟨rfl, rfl, fun known offers => .index (isBase known offers) (isIndex known offers) made⟩

theorem deref_step : SettlesTree env (Call.deref.Blames env n) (deref (n + 1)) := by
  refine .start fun c o s _ _ exhausts => ?_
  refine .expected nofun <| .skipped ?_
  have operand : SettlesTree env (fun pos => ∃ callee : Call, callee.exhaustsAt env n pos) (derefTarget n) := by
    refine .peeked fun code => ?_
    split
    · exact reads.paren.somewhere
    · split
      · exact reads.deref.somewhere
      · exact namedVariable_settles.imp (fun _ _ _ => id) fun _ => False.elim
  refine .read operand (fun _ later ⟨_, ran⟩ => exhausts (.later later ran)) fun address offered => ?_
  exact .built fun _ made => ⟨rfl, rfl, fun known offers => .deref (offered known offers) made⟩

theorem reference_step : SettlesTree env (Call.reference.Blames env n) (reference (n + 1)) := by
  refine .start fun c o s _ _ exhausts => ?_
  refine .expected nofun <| .skipped ?_
  have operand : SettlesTree env (fun pos => ∃ callee : Call, callee.exhaustsAt env n pos) (addressTarget n) := by
    refine .peeked fun code => ?_
    split
    · exact reads.deref.somewhere
    · exact .orElse reads.arrayAccess.somewhere (namedVariable_settles.imp (fun _ _ _ => id) fun _ => False.elim)
  refine .read operand (fun _ later ⟨_, ran⟩ => exhausts (.later later ran)) fun target offered => ?_
  exact .built fun _ made => ⟨rfl, rfl, fun known offers => .addressOf (offered known offers) made⟩

omit reads

theorem ExpressionsSettle.succ (reads : ExpressionsSettle env n) : ExpressionsSettle env (n + 1) where
  expression := (expression_step reads).self
  operations c pending values := (operations_step reads c pending values).self
  operand := (operand_step reads).self
  paren := (paren_step reads).self
  value := (value_step reads).self
  increment := (increment_step reads).self
  step c down := (step_step reads c down).self
  cast := (cast_step reads).self
  call := (call_step reads).self
  arguments c := (arguments_step reads c).self
  arrayAccess := (arrayAccess_step reads).self
  deref := (deref_step reads).self
  reference := (reference_step reads).self

theorem expressionsSettle (env : Env) (n : Nat) : ExpressionsSettle env n := by
  induction n with
  | zero => constructor <;> intros <;> exact fun r => ⟨r, rfl, rfl⟩
  | succ n ih => exact ih.succ

end Rule

end Cb
