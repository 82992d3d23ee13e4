import Cb.Proofs.ProgramRules

/-! Reading ends on every source. The calls of the rules descend in a well-founded order of positions and
ranks, so the counts that the rules start with never run out. -/

namespace Cb

namespace Call

variable {env : Env} {n : Nat}

open Rule in
theorem blames_of_exhausts {caller : Call} (ran : caller.exhausts env (n + 1) r) :
    caller.Blames env n r.pos := by
  have reads := expressionsSettle env n
  have states := statementsSettle env n
  cases caller with
  | stars => exact ((stars_step (stars_follows env r.checkpoint n)).spent_of ran).blames
  | expression => exact (expression_step reads).spent_of ran
  | operations c pending values => exact (operations_step reads c pending values).spent_of ran
  | operand => exact (operand_step reads).spent_of ran
  | paren => exact (paren_step reads).spent_of ran
  | value => exact (value_step reads).spent_of ran
  | increment => exact (increment_step reads).spent_of ran
  | step c down => exact (step_step reads c down).spent_of ran
  | cast => exact (cast_step reads).spent_of ran
  | call => exact (call_step reads).spent_of ran
  | arguments c => exact (arguments_step reads c).spent_of ran
  | arrayAccess => exact (arrayAccess_step reads).spent_of ran
  | deref => exact (deref_step reads).spent_of ran
  | reference => exact (reference_step reads).spent_of ran
  | statement place => exact (statement_step states place).spent_of ran
  | block place => exact (block_step states place).spent_of ran
  | items place c terminated warned => exact (items_step states place c terminated warned).spent_of ran
  | branch place => exact (branch_step states place).spent_of ran
  | loopBody place => exact (loopBody_step states place).spent_of ran
  | whileLoop place => exact (whileLoop_step states place).spent_of ran
  | forLoop place => exact (forLoop_step states place).spent_of ran
  | assemblyLines c => exact ((assemblyLines_step (assemblyLines_follows env c n)).spent_of ran).blames
  | params c seen =>
    obtain ⟨there, further, later, ran⟩ := (params_step (params_follows env c n)).spent_of ran
    exact .later later ran

theorem rank_le (brace : Bool) (which : Call) : which.rank brace ≤ 6 := by
  simp only [rank]
  repeat' split
  all_goals omega

def weight (source : Source) (which : Call) (pos : Position) : Nat :=
  16 * source.remaining pos + which.rank (source.opensAt pos)

theorem Below.weight_lt {callee caller : Call} (below : callee.Below source there caller here) :
    callee.weight source there < caller.weight source here := by
  rcases below with later | ⟨rfl, lower⟩
  · have fewer := later.2
    have small := rank_le (source.opensAt there) callee
    simp only [weight]
    omega
  · simp only [weight]
    omega

theorem wellFounded_below (source : Source) :
    WellFounded fun callee caller : Call × Position => callee.1.Below source callee.2 caller.1 caller.2 := by
  have lighter := InvImage.wf (fun which : Call × Position => which.1.weight source which.2) Nat.lt_wfRel.wf
  exact Subrelation.wf (fun below => below.weight_lt) lighter

theorem count_le_weight {which : Call} (ran : which.exhaustsAt env n pos) :
    n ≤ which.weight env.source pos := by
  induction n generalizing which pos with
  | zero => exact Nat.zero_le _
  | succ n ih =>
    obtain ⟨r, rfl, ran⟩ := ran
    obtain ⟨callee, there, below, stuck⟩ := blames_of_exhausts ran
    have lighter := below.weight_lt
    have bound := ih stuck
    omega

theorem count_lt_depth {which : Call} (ran : which.exhaustsAt env n pos) : n < env.source.depth := by
  have bound := count_le_weight ran
  have small := rank_le (env.source.opensAt pos) which
  have fewer := env.source.remaining_le_size pos
  simp only [weight] at bound
  simp only [Source.depth]
  omega

end Call

namespace Rule

variable {env : Env} {n : Nat}

theorem function_count_lt (ran : function n env r = .exhausted) : n < env.source.depth := by
  have outcome := function_reads env n r
  rw [ran] at outcome
  obtain ⟨callee, there, _, stuck⟩ := outcome
  exact Call.count_lt_depth stuck

theorem functions_count_le (enough : env.source.depth ≤ depth) (ran : functions depth n env r = .exhausted) :
    n ≤ env.source.remaining r.pos := by
  let goesOn (n : Nat) (pos : Position) : Prop := ∃ r : Reader, r.pos = pos ∧ functions depth n env r = .exhausted
  refine Source.rounds_le_remaining goesOn (fun n p begun => ?_) ⟨r, rfl, ran⟩
  obtain ⟨r, rfl, ran⟩ := begun
  rcases functions_step ran with stuck | ⟨next, later, rest⟩
  · have short := function_count_lt stuck
    omega
  · exact ⟨next.pos, later, next, rfl, rest⟩

theorem reading_unspent (env : Env) :
    (skip >>= fun _ => functions env.source.depth (env.source.size + 1)) env {} ≠ .exhausted := by
  intro ran
  let first : Reader := (Reader.skip env.source {}).2
  have begun : functions env.source.depth (env.source.size + 1) env first = .exhausted := ran
  have rounds := functions_count_le (Nat.le_refl _) begun
  have fewer := env.source.remaining_le_size first.pos
  omega

end Rule

/-! Larger counts. -/

namespace Rule

/-- The first rule replies like the second one, unless its count runs out. -/
def Precedes {α : Type} (rule other : Rule α) : Prop := ∀ env r, rule env r = .exhausted ∨ rule env r = other env r

namespace Precedes

variable {α β : Type} {x y z w : Rule α} {f g : α → Rule β} {c : Checkpoint}

theorem refl (x : Rule α) : Precedes x x := fun _ _ => .inr rfl

theorem bind (first : Precedes x y) (next : ∀ value, Precedes (f value) (g value)) : Precedes (x >>= f) (y >>= g) := by
  intro env r
  simp only [bind_apply]
  rcases first env r with ran | same
  · simp only [ran, true_or]
  · rw [← same]
    cases x env r with
    | ok value after => exact next value env after
    | fail | exhausted => exact .inr rfl

theorem after (next : ∀ value, Precedes (f value) (g value)) : Precedes (x >>= f) (x >>= g) := (refl x).bind next

theorem orElse (first : Precedes x y) (second : Precedes z w) : Precedes (x.orElse z) (y.orElse w) := by
  intro env r
  simp only [Rule.orElse]
  rcases first env r with ran | same
  · simp only [ran, true_or]
  · rw [← same]
    cases x env r with
    | fail after => exact second env after
    | ok | exhausted => exact .inr rfl

theorem optional (first : Precedes x y) : Precedes x.optional y.optional := by
  intro env r
  simp only [Rule.optional]
  rcases first env r with ran | same <;> simp [*]

theorem orReject {reason : Reason} (first : Precedes x y) : Precedes (x.orReject c reason) (y.orReject c reason) := by
  intro env r
  simp only [Rule.orReject]
  rcases first env r with ran | same <;> simp [*]

theorem orRestore (first : Precedes x y) : Precedes (x.orRestore c) (y.orRestore c) := by
  intro env r
  simp only [Rule.orRestore]
  rcases first env r with ran | same <;> simp [*]

theorem ite {p : Prop} [Decidable p] (yes : Precedes x y) (no : Precedes z w) :
    Precedes (if p then x else z) (if p then y else w) := by
  split
  · exact yes
  · exact no

end Precedes

variable {n m : Nat} (reads : Precedes (expression n) (expression m))

include reads

theorem condition_precedes (c : Checkpoint) : Precedes (condition n c) (condition m c) :=
  .bind reads.orReject fun _ => .refl _

theorem declaration_precedes : Precedes (declaration n) (declaration m) := by
  refine .after fun c => .after fun ty => .ite (.refl _) <| .after fun name => .after fun _ => .after fun _ =>
    .after fun _ => .ite ?_ ?_
  · exact .after fun _ => .ite (.refl _) <| .after fun _ => .bind reads.orReject fun _ => .refl _
  · exact .after fun _ => .ite (.after fun _ => .bind reads.orReject fun _ => .refl _) (.refl _)

theorem returnStatement_precedes (place : Place) : Precedes (returnStatement n place) (returnStatement m place) :=
  .after fun _ => .after fun _ => .after fun _ => .ite (.refl _) (.bind reads.orReject fun _ => .refl _)

theorem initializer_precedes (c : Checkpoint) : Precedes (initializer n c) (initializer m c) := by
  refine .after fun _ => .ite (.refl _) (.bind (declaration_precedes reads).optional fun found => ?_)
  cases found with
  | some s => exact .refl _
  | none => exact .bind reads.orReject fun _ => .refl _

theorem loopCondition_precedes (c : Checkpoint) : Precedes (loopCondition n c) (loopCondition m c) :=
  .after fun _ => .ite (.refl _) (.bind (condition_precedes reads c) fun _ => .refl _)

theorem incrementer_precedes (c : Checkpoint) : Precedes (incrementer n c) (incrementer m c) :=
  .after fun _ => .ite (.refl _) (.bind reads.orReject fun _ => .refl _)

end Rule

namespace Call

open Rule

variable {n m : Nat}

theorem rule_precedes_step (ih : ∀ which : Call, Precedes (which.rule n) (which.rule m)) (which : Call) :
    Precedes (which.rule (n + 1)) (which.rule (m + 1)) := by
  have reads : Precedes (Rule.expression n) (Rule.expression m) := ih .expression
  cases which
  case operand => exact .orElse (ih .cast) (.after fun _ => .ite (ih .paren) (ih .value))
  case value =>
    exact .orElse (.refl _) <| .orElse (ih .increment) <| .orElse (ih .cast) <| .orElse (.refl _) <|
      .orElse (ih .call) <| .orElse (ih .arrayAccess) <| .orElse (.refl _) <| .orElse (.refl _) <|
      .orElse (ih .deref) <| .orElse (ih .reference) (.refl _)
  case forLoop =>
    exact .after fun _ => .after fun _ => .after fun _ => .after fun _ => .after fun _ => .after fun _ =>
      .bind (initializer_precedes reads _) fun _ => .after fun _ => .bind (loopCondition_precedes reads _) fun _ =>
      .after fun _ => .bind (incrementer_precedes reads _) fun _ => .after fun _ =>
      .bind (ih (.loopBody _)).orReject fun _ => .refl _
  -- What comes before the first call of the others is the same in both.
  all_goals repeat refine .after fun _ => ?_
  case stars => exact .ite (.after fun _ => .bind (ih .stars) fun _ => .refl _) (.refl _)
  case expression => exact .bind (ih .operand).orReject fun _ => ih (.operations ..)
  case operations incoming _ built =>
    obtain ⟨pending, values⟩ := built
    cases incoming with
    | none => exact .refl _
    | some op => exact .after fun _ => .bind (ih .operand).orReject fun _ => ih (.operations ..)
  case paren | arrayAccess => exact .bind reads.orReject fun _ => .refl _
  case increment => exact .ite (ih (.step ..)) <| .after fun _ => .ite (ih (.step ..)) (.refl _)
  case step => exact .bind (ih .value).orReject fun _ => .refl _
  case cast => exact .bind (.orReject (.after fun _ => .ite (ih .paren) (ih .value))) fun _ => .refl _
  case call =>
    exact .ite (.refl _) <| .after fun _ => .after fun _ => .after fun _ =>
      .ite (.refl _) (.bind (ih (.arguments _)) fun _ => .refl _)
  case arguments =>
    exact .bind reads.orReject fun _ => .after fun _ => .after fun _ =>
      .ite (.bind (ih (.arguments _)) fun _ => .refl _) (.refl _)
  case deref =>
    exact .bind (.orReject (.after fun _ => .ite (ih .paren) (.ite (ih .deref) (.refl _)))) fun _ => .refl _
  case reference =>
    exact .bind (.orReject (.after fun _ => .ite (ih .deref) (.orElse (ih .arrayAccess) (.refl _)))) fun _ => .refl _
  case statement =>
    exact .ite (ih (.block _)) <| .orElse (.refl _) <| .orElse (.refl _) <| .orElse (.refl _) <|
      .orElse (ih (.branch _)) <| .orElse (ih (.forLoop _)) <| .orElse (ih (.whileLoop _)) <|
      .orElse (returnStatement_precedes reads _) <| .orElse (declaration_precedes reads)
      (.after fun _ => .bind reads fun _ => .refl _)
  case block =>
    exact .ite (.refl _) <| .after fun _ => .ite
      (.after fun _ => .after fun _ => .bind (ih (.items ..)) fun _ => .refl _)
      (.after fun _ => .bind (ih (.statement _)).orRestore fun _ => .refl _)
  case items place c terminated _ _ =>
    refine .ite (.refl _) <| .after fun _ => .ite (.refl _) <| .after fun _ =>
      .bind (ih (.statement place)).orRestore fun s => ?_
    have rest : Precedes (laterItems n place c terminated s) (laterItems m place c terminated s) :=
      .after fun _ => .bind (ih (.items ..)) fun _ => .refl _
    exact .ite (.after fun _ => rest) rest
  case branch place c _ _ _ _ =>
    refine .bind (condition_precedes reads c) fun _ => .after fun _ => .after fun _ => .after fun _ =>
      .bind (ih (.block place)).orReject fun _ => .after fun _ => .after fun _ => .after fun found => ?_
    cases found with
    | none => exact .refl _
    | some _ => exact .after fun _ => .bind (ih (.block place)).orReject fun _ => .refl _
  case loopBody => exact ih (.block _)
  case whileLoop =>
    exact .bind (condition_precedes reads _) fun _ => .after fun _ => .after fun _ => .after fun _ =>
      .bind (ih (.loopBody _)).orReject fun _ => .refl _
  case assemblyLines =>
    exact .ite (.refl _) <| .after fun _ => .after fun _ => .ite (.refl _) <| .after fun _ =>
      .bind (ih (.assemblyLines _)) fun _ => .refl _
  case params c seen _ _ =>
    refine .ite (.refl _) <| .after fun ty => .ite (.refl _) <| .after fun _ => ?_
    have rest (found : Option Bytes) : Precedes (laterParams c n seen ty found) (laterParams c m seen ty found) := by
      have more := (ih (.params c (found.toList ++ seen))).bind fun others => .refl (pure (consParam ty found others))
      exact .after fun _ => .ite (.after fun _ => .ite (.after fun _ => more) more) more
    exact .ite (.after rest) <| .after fun _ => .ite (.after rest) <| .after fun _ => .after rest

theorem rule_precedes (larger : n ≤ m) (which : Call) : Precedes (which.rule n) (which.rule m) := by
  induction n generalizing m which with
  | zero => cases which <;> exact fun _ _ => .inl rfl
  | succ n ih =>
    obtain ⟨m, rfl⟩ : ∃ k, m = k + 1 := ⟨m - 1, by omega⟩
    exact rule_precedes_step (fun which => ih (by omega) which) which

end Call

structure Terminates (env : Env) : Prop where
  /-- Positions decide first, then the ranks of the rules; nothing descends forever. A loop is a rule that
  calls itself, so it goes round only after it got on. -/
  ordered : WellFounded fun callee caller : Call × Position => callee.1.Below env.source callee.2 caller.1 caller.2
  calls : ∀ (caller : Call) (n : Nat) (r : Reader), caller.exhausts env (n + 1) r →
    ∃ (callee : Call) (next : Reader), callee.Below env.source next.pos caller r.pos ∧ callee.exhausts env n next
  /-- A reply depends on the calls below only: once they have come to their replies, it is there as well, and no larger
  count changes it. -/
  depends : ∀ (caller : Call) (n m : Nat) (r : Reader), n ≤ m →
    (∀ (callee : Call) (next : Reader), callee.Below env.source next.pos caller r.pos → ¬callee.exhausts env n next) →
    ¬caller.exhausts env (n + 1) r ∧ caller.rule (m + 1) env r = caller.rule (n + 1) env r
  function : ∀ (n : Nat) (r : Reader), Rule.function n env r = .exhausted →
    ∃ (callee : Call) (next : Reader), env.source.Later r.pos next.pos ∧ callee.exhausts env n next
  functions : ∀ (depth n : Nat) (r : Reader), Rule.functions depth (n + 1) env r = .exhausted →
    Rule.function depth env r = .exhausted ∨
      ∃ next : Reader, env.source.Later r.pos next.pos ∧ Rule.functions depth n env next = .exhausted
  skip : ∀ r : Reader, env.source.Ahead r.pos (r.skip env.source).2.pos ∧
    Reader.isSkipped ((r.skip env.source).2.peek env.source) = false
  loops : ∀ r : Reader, Rule.dataType env r ≠ .exhausted ∧ Rule.assembly env r ≠ .exhausted
  total : ∃ r : Reader,
    let reply := (Rule.skip >>= fun _ => Rule.functions env.source.depth (env.source.size + 1)) env {}
    reply = .ok () r ∧ (parse env).program = .ok ⟨r.scope.functions⟩ ∨
      reply = .fail r ∧ ∃ error, (parse env).program = .error error

/-- Reading ends on every source: calls descend in a well-founded order of positions and ranks, loops get on or stop,
and the counts that reading starts with do not run out. -/
theorem reading_terminates (env : Env) : Terminates env where
  ordered := Call.wellFounded_below env.source
  calls caller n r ran := by
    obtain ⟨callee, there, below, next, rfl, stuck⟩ := Call.blames_of_exhausts ran
    exact ⟨callee, next, below, stuck⟩
  depends caller n m r larger replied := by
    have lasts : ¬caller.exhausts env (n + 1) r := by
      intro ran
      obtain ⟨callee, there, below, next, rfl, stuck⟩ := Call.blames_of_exhausts ran
      exact replied callee next below stuck
    refine ⟨lasts, ?_⟩
    rcases Call.rule_precedes (Nat.succ_le_succ larger) caller env r with ran | same
    · exact absurd ran lasts
    · exact same.symm
  function n r ran := by
    have outcome := Rule.function_reads env n r
    rw [ran] at outcome
    obtain ⟨callee, there, later, next, rfl, stuck⟩ := outcome
    exact ⟨callee, next, later, stuck⟩
  functions depth n r ran := Rule.functions_step ran
  skip r := ⟨Reader.skip_ahead r, Reader.skip_stops env.source r⟩
  loops r := ⟨fun ran => Rule.dataType_settles.spent_of ran, fun ran => (Rule.assembly_settles ⟨.void, none⟩).spent_of ran⟩
  total := by
    cases ran : (Rule.skip >>= fun _ => Rule.functions env.source.depth (env.source.size + 1)) env {} with
    | ok value r =>
      refine ⟨r, .inl ⟨rfl, ?_⟩⟩
      simp only [parse, ran]
    | fail r =>
      refine ⟨r, .inr ⟨rfl, ?_⟩⟩
      simp only [parse, ran]
      exact ⟨_, rfl⟩
    | exhausted => exact absurd ran (Rule.reading_unspent env)

end Cb
