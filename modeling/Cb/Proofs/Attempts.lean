import Cb.Proofs.Progress

/-! What rules do to the position and to the scope: a rule gets on, or it is undone, or a count has run
out in one of its calls. -/

namespace Cb

structure Attempt (env : Env) (c : Checkpoint) where
  entry : Position
  lost : Scope → Prop
  spent : Prop

namespace Attempt

variable {env : Env} {c : Checkpoint} {o : Attempt env c} {moved : Bool} {p q : Position}

def At (o : Attempt env c) : (moved : Bool) → Position → Prop
  | false, pos => env.source.Ahead o.entry pos
  | true, pos => env.source.Later o.entry pos

theorem At.ahead (here : o.At moved p) : env.source.Ahead o.entry p := by
  cases moved with
  | false => exact here
  | true => exact Source.Later.ahead here

theorem At.later (here : o.At moved p) (later : env.source.Later p q) : o.At true q := here.ahead.then_later later

theorem At.onward (here : o.At moved p) (further : env.source.Ahead p q) : o.At moved q := by
  cases moved with
  | false => exact Source.Ahead.trans here further
  | true => exact Source.Later.then_ahead here further

def Back (o : Attempt env c) (after : Reader) : Prop :=
  (env.source.Ahead c.pos o.entry → after.pos = c.pos) ∧ o.lost after.scope

class Undoes (o : Attempt env c) (s : Scope) : Prop where
  gone : ∀ t : Scope, t.Extends s → o.lost (t.truncate c.sizes)

def Covers (o : Attempt env c) (moved : Bool) (spent : Position → Prop) : Prop :=
  ∀ pos, o.At moved pos → spent pos → o.spent

theorem Covers.never : o.Covers moved fun _ => False := fun _ _ => False.elim

theorem Undoes.here (undoes : o.Undoes s) : o.lost (s.truncate c.sizes) := undoes.gone s (.refl s)

theorem Undoes.grown (undoes : o.Undoes s) (grown : t.Extends s) : o.Undoes t :=
  ⟨fun u further => undoes.gone u (further.trans grown)⟩

variable {r : Reader}

theorem Undoes.restore (undoes : o.Undoes r.scope) (here : o.At moved r.pos) : o.Back (r.restore c) :=
  ⟨fun behind => Reader.restore_pos (behind.trans here.ahead), undoes.here⟩

theorem Undoes.reject (undoes : o.Undoes r.scope) (here : o.At moved r.pos) (reason : Reason) :
    o.Back (r.reject c reason) := by
  refine ⟨fun behind => Reader.reject_pos (behind.trans here.ahead) reason, ?_⟩
  rw [Reader.reject_scope]
  exact undoes.here

theorem At.restored (here : o.At moved r.pos) (marked : o.At moved mark.pos) :
    o.At moved (r.restore mark).pos := by
  rcases r.restore_pos_or mark with back | stays
  · rwa [back]
  · rwa [stays]

end Attempt

def Reply.Fits {α : Type} {env : Env} {c : Checkpoint} (o : Attempt env c) (success : α → Bool → Scope → Prop) : Reply α → Prop
  | .ok value after => ∃ moved, o.At moved after.pos ∧ success value moved after.scope
  | .fail after => o.Back after
  | .exhausted => o.spent

def Reply.Settled {α : Type} (env : Env) (grows : α → Scope → Scope → Prop) (spent : Position → Prop) (r : Reader) :
    Reply α → Prop
  | .ok value after => env.source.Later r.pos after.pos ∧ grows value r.scope after.scope
  | .fail after => after.pos = r.pos ∧ after.scope = r.scope
  | .exhausted => spent r.pos

theorem Reply.Settled.imp {reply : Reply α} (outcome : reply.Settled env grows spent r)
    (grown : ∀ value t, grows value r.scope t → wider value r.scope t) (exhausts : spent r.pos → weaker r.pos) :
    reply.Settled env wider weaker r := by
  cases reply with
  | ok value after => exact ⟨outcome.1, grown value _ outcome.2⟩
  | fail after => exact outcome
  | exhausted => exact exhausts outcome

def Reply.Followed {α : Type} (env : Env) (c : Checkpoint) (grows : α → Scope → Scope → Prop) (spent : Position → Prop)
    (r : Reader) : Reply α → Prop
  | .ok value after => env.source.Ahead r.pos after.pos ∧ grows value r.scope after.scope
  | .fail after =>
    (env.source.Ahead c.pos r.pos → after.pos = c.pos) ∧ ∃ t : Scope, t.Extends r.scope ∧ after.scope = t.truncate c.sizes
  | .exhausted => spent r.pos

namespace Rule

variable {α β : Type} {env : Env} {c : Checkpoint}

def Runs (o : Attempt env c) (moved : Bool) (s : Scope) (rule : Rule α) (success : α → Bool → Scope → Prop) : Prop :=
  ∀ r : Reader, o.At moved r.pos → r.scope = s → (rule env r).Fits o success

def Onward (rule : Rule α) : Prop :=
  ∀ env r, ∃ value after, rule env r = .ok value after ∧ after.scope = r.scope ∧ env.source.Ahead r.pos after.pos

def Settles (env : Env) (grows : α → Scope → Scope → Prop) (spent : Position → Prop) (rule : Rule α) : Prop :=
  ∀ r : Reader, (rule env r).Settled env grows spent r

def Follows (env : Env) (c : Checkpoint) (grows : α → Scope → Scope → Prop) (spent : Position → Prop)
    (rule : Rule α) : Prop :=
  ∀ r : Reader, (rule env r).Followed env c grows spent r

def Kept (_ : α) (s t : Scope) : Prop := t = s

def Yields (holds : α → Scope → Prop) (value : α) (s t : Scope) : Prop := t = s ∧ holds value s

namespace Onward

theorem pure (value : α) : Onward (Pure.pure value : Rule α) := fun _ _ => ⟨_, _, rfl, rfl, .refl _⟩

theorem bind (first : Onward rule) (second : ∀ value, Onward (next value)) :
    Onward (rule >>= next) := by
  intro env r
  obtain ⟨value, middle, ran, kept, ahead⟩ := first env r
  obtain ⟨result, after, ranAfter, keptAfter, further⟩ := second value env middle
  refine ⟨result, after, ?_, keptAfter.trans kept, ahead.trans further⟩
  simp only [bind_apply, ran, ranAfter]

theorem skip : Onward skip := fun env r => ⟨_, _, rfl, Reader.skipUpTo_scope env.source _ r, Reader.skip_ahead r⟩

theorem advance : Onward advance := fun env r => ⟨_, _, rfl, Reader.advance_scope env.source r, Reader.advance_ahead r⟩

theorem word : Onward word := fun _ r => ⟨_, _, rfl, rfl, Reader.word_ahead r⟩

theorem test (character : Char) : Onward (test character) :=
  fun env r => ⟨_, _, rfl, Reader.test_scope env.source _ r, Reader.test_ahead _ r⟩

theorem peek : Onward peek := fun _ _ => ⟨_, _, rfl, rfl, .refl _⟩

theorem position : Onward position := fun _ _ => ⟨_, _, rfl, rfl, .refl _⟩

theorem isOn (feature : Feature) : Onward (isOn feature) := fun _ _ => ⟨_, _, rfl, rfl, .refl _⟩

theorem scaling : Onward scaling := fun _ _ => ⟨_, _, rfl, rfl, .refl _⟩

theorem warn (warning : Warning) (pos : Position) (message : Bytes) : Onward (warn warning pos message) := by
  intro env r
  simp only [Rule.warn]
  split
  · exact ⟨(), _, rfl, Reader.remark_scope r _, .inl (Reader.remark_pos r _)⟩
  · exact ⟨(), r, rfl, rfl, .refl _⟩

end Onward

theorem choose_apply (character : Char) (yes no : Rule α) (env : Env) (r : Reader) :
    (test character >>= fun next => if next = true then yes else no) env r =
      if r.peek env.source = character.toNat then yes env (r.advance env.source) else no env r := by
  simp only [bind_apply, test, tries, Reader.test]
  split <;> rfl

theorem keyword_eq (text : Bytes) (mark : Checkpoint) (env : Env) (r : Reader) :
    keyword text mark env r = match Reader.expectText env.source text mark r with
      | (true, after) => if continuesWord (after.peek env.source) = true then .fail (after.restore mark) else .ok () after
      | (false, after) => .fail after := by
  change Rule.bind (require fun source => Reader.expectText source text mark) _ env r = _
  simp only [Rule.bind, require]
  cases Reader.expectText env.source text mark r with
  | mk moved after =>
    cases moved with
    | false => rfl
    | true =>
      change (if continuesWord (after.peek env.source) = true then Rule.fails mark else Pure.pure ()) env after = _
      simp only
      split <;> rfl

theorem keyword_cases (mark : Checkpoint) (env : Env) (r : Reader) (proper : Reader.IsSpelled text) :
    (∃ after : Reader, keyword text mark env r = .ok () after ∧ after.scope = r.scope ∧
      env.source.Later r.pos after.pos) ∨
    ∃ middle : Reader, keyword text mark env r = .fail (middle.restore mark) ∧ middle.scope = r.scope ∧
      env.source.Ahead r.pos middle.pos := by
  rw [keyword_eq, Reader.expectText]
  rcases Reader.expectCodes_cases (c := mark) (r := r) proper.2 with
    ⟨after, ran, kept, later⟩ | ⟨middle, reason, ran, kept, ahead⟩
  · rw [if_neg proper.1] at later
    rw [ran]
    by_cases longer : continuesWord (after.peek env.source) = true
    · exact .inr ⟨after, if_pos longer, kept, later.ahead⟩
    · exact .inl ⟨after, if_neg longer, kept, later⟩
  · rw [ran]
    refine .inr ⟨middle.note reason, rfl, ?_, ?_⟩
    · rw [Reader.note_scope, kept]
    · rwa [Reader.note_pos]

namespace Runs

variable {o : Attempt env c} {moved : Bool} {s : Scope} {success : β → Bool → Scope → Prop}

theorem pure {value : β} (holds : success value moved s) : Runs o moved s (Pure.pure value : Rule β) success := by
  rintro r here rfl
  exact ⟨moved, here, holds⟩

theorem imp (runs : Runs o moved s rule success)
    (implies : ∀ value further t, success value further t → weaker value further t) : Runs o moved s rule weaker := by
  intro r here same
  have outcome := runs r here same
  generalize rule env r = reply at outcome ⊢
  cases reply with
  | ok value after =>
    obtain ⟨further, there, reached⟩ := outcome
    exact ⟨further, there, implies value further after.scope reached⟩
  | fail after => exact outcome
  | exhausted => exact outcome

theorem of_ok {value : β} (runs : Runs o moved s rule success) (here : o.At moved r.pos) (same : r.scope = s)
    (ran : rule env r = .ok value after) : ∃ further, success value further after.scope := by
  have outcome := runs r here same
  rw [ran] at outcome
  obtain ⟨further, _, reached⟩ := outcome
  exact ⟨further, reached⟩

variable {rule : Rule α} {next : α → Rule β} {reason : Reason} {t : Scope} {text : Bytes} {character : Char}

theorem bind (first : Runs o moved s rule middle)
    (second : ∀ value further t, middle value further t → Runs o further t (next value) success) :
    Runs o moved s (rule >>= next) success := by
  intro r here same
  have outcome := first r here same
  rw [bind_apply]
  generalize rule env r = reply at outcome ⊢
  cases reply with
  | ok value after =>
    obtain ⟨further, there, reached⟩ := outcome
    exact second value further after.scope reached after there rfl
  | fail after => exact outcome
  | exhausted => exact outcome

theorem after (onward : Onward rule) (second : ∀ value, Runs o moved s (next value) success) :
    Runs o moved s (rule >>= next) success := by
  intro r here same
  obtain ⟨value, middle, ran, kept, ahead⟩ := onward env r
  simp only [bind_apply, ran]
  exact second value middle (here.onward ahead) (kept.trans same)

theorem skipped {next : Unit → Rule β} (second : Runs o moved s (next ()) success) :
    Runs o moved s (Rule.skip >>= next) success := after .skip fun _ => second

theorem scope {next : Scope → Rule β} (second : Runs o moved s (next s) success) :
    Runs o moved s (Rule.scope >>= next) success := by
  rintro r here rfl
  exact second r here rfl

theorem sourceSize {next : Nat → Rule β} (second : Runs o moved s (next env.source.size) success) :
    Runs o moved s (Rule.sourceSize >>= next) success := fun r here same => second r here same

theorem update (changes : ∀ r : Reader, r.scope = s → (change r).pos = r.pos ∧ (change r).scope = t)
    (holds : reads () moved t) :
    Runs o moved s (Rule.update change) reads := by
  intro r here same
  obtain ⟨stays, becomes⟩ := changes r same
  exact ⟨moved, stays.symm ▸ here, becomes.symm ▸ holds⟩

theorem changed {next : Unit → Rule β}
    (changes : ∀ r : Reader, r.scope = s → (change r).pos = r.pos ∧ (change r).scope = t)
    (second : Runs o moved t (next ()) success) : Runs o moved s (Rule.update change >>= next) success := by
  have first : Runs o moved s (Rule.update change) fun _ further u => further = moved ∧ u = t := update changes ⟨rfl, rfl⟩
  refine first.bind fun _ further u reached => ?_
  obtain ⟨rfl, rfl⟩ := reached
  exact second

theorem setScope {next : Unit → Rule β} (second : Runs o moved t (next ()) success) :
    Runs o moved s (Rule.setScope t >>= next) success := changed (fun _ _ => ⟨rfl, rfl⟩) second

theorem reject [undoes : o.Undoes s] : Runs o moved s (Rule.reject c reason : Rule β) success := by
  rintro r here rfl
  exact undoes.reject here reason

theorem rejected [undoes : o.Undoes s] :
    Runs o moved s (Rule.reject c reason >>= next) success := by
  have first : Runs o moved s (Rule.reject c reason : Rule α) fun _ _ _ => False := reject
  exact first.bind fun _ _ _ never => never.elim

theorem fails [undoes : o.Undoes s] : Runs o moved s (Rule.fails c : Rule β) success := by
  rintro r here rfl
  exact undoes.restore here

theorem built (made : ∀ value, tree = .ok value → success value moved s) [undoes : o.Undoes s] :
    Runs o moved s (Rule.built tree c) success := by
  cases tree with
  | ok value => exact pure (made value rfl)
  | error error => exact reject

theorem whenBuilt (second : ∀ value, tree = .ok value → Runs o moved s (next value) success)
    [undoes : o.Undoes s] :
    Runs o moved s (Rule.built tree c >>= next) success := by
  cases tree with
  | ok value => exact second value rfl
  | error error => exact rejected

theorem choose (proper : character.toNat ≠ endOfFile) (found : Runs o true s yes success)
    (missing : Runs o moved s no success) :
    Runs o moved s (Rule.test character >>= fun next => if next = true then yes else no) success := by
  rintro r here rfl
  rw [choose_apply]
  split
  · rename_i next
    exact found _ (here.later (Reader.advance_later (next ▸ proper))) (Reader.advance_scope _ r)
  · exact missing r here rfl

theorem chooseThen (proper : character.toNat ≠ endOfFile) (found : Runs o true s yes middle)
    (missing : Runs o moved s no middle)
    (second : ∀ value further t, middle value further t → Runs o further t (next value) success) :
    Runs o moved s (Rule.test character >>= fun there => if there = true then yes >>= next else no >>= next) success :=
  .choose proper (found.bind second) (missing.bind second)

theorem chooseText (spelled : Reader.IsSpelled text) (found : Runs o true s yes success)
    (missing : Runs o moved s no success) :
    Runs o moved s (Rule.testText text >>= fun next => if next = true then yes else no) success := by
  rintro r here rfl
  change ((if (Reader.testText env.source text r).1 = true then yes else no) env
    (Reader.testText env.source text r).2).Fits o success
  have kept := Reader.testText_scope env.source text r
  by_cases next : (Reader.testText env.source text r).1 = true
  · rw [if_pos next]
    exact found _ (here.later (Reader.testText_later spelled next)) kept
  · rw [if_neg next]
    have stays := Reader.testText_pos (Bool.eq_false_iff.mpr next)
    exact missing _ (stays ▸ here) kept

theorem expected {next : Unit → Rule β} (proper : character.toNat ≠ endOfFile)
    (second : Runs o true s (next ()) success) [undoes : o.Undoes s] :
    Runs o moved s (Rule.expect character c >>= next) success := by
  have first : Runs o moved s (Rule.expect character c) fun _ further t => further = true ∧ t = s := by
    rintro r here rfl
    simp only [Rule.expect, require, Reader.expect]
    by_cases found : r.peek env.source = character.toNat
    · rw [if_pos found]
      have more : r.peek env.source ≠ endOfFile := by rwa [found]
      exact ⟨true, here.later (Reader.advance_later more), rfl, Reader.advance_scope env.source r⟩
    · rw [if_neg found]
      exact undoes.reject here _
  refine first.bind fun _ further t reached => ?_
  obtain ⟨rfl, rfl⟩ := reached
  exact second

theorem spaced {next : Unit → Rule β} (proper : character.toNat ≠ endOfFile)
    (second : Runs o true s (next ()) success) [o.Undoes s] :
    Runs o moved s (Rule.skip >>= fun _ => Rule.expect character c >>= next) success :=
  skipped (expected proper second)

theorem spelled {next : Unit → Rule β} (proper : Reader.IsSpelled text)
    (second : Runs o true s (next ()) success) [undoes : o.Undoes s] :
    Runs o moved s (Rule.keyword text c >>= next) success := by
  rintro r here rfl
  rcases keyword_cases c env r proper with ⟨after, ran, kept, later⟩ | ⟨middle, ran, kept, ahead⟩
  · simp only [bind_apply, ran]
    exact second after (here.later later) kept
  · simp only [bind_apply, ran]
    exact Attempt.Undoes.restore (kept ▸ undoes) (here.onward ahead)

theorem whetherSpelled {next : Option Unit → Rule β} (proper : Reader.IsSpelled text) (marked : o.At moved mark.pos)
    (own : mark.sizes = s.sizes) (found : Runs o true s (next (some ())) success)
    (missing : Runs o moved s (next none) success) :
    Runs o moved s (Rule.optional (Rule.keyword text mark) >>= next) success := by
  rintro r here rfl
  rcases keyword_cases mark env r proper with ⟨after, ran, kept, later⟩ | ⟨middle, ran, kept, ahead⟩
  · simp only [bind_apply, Rule.optional, ran]
    exact found after (here.later later) kept
  · simp only [bind_apply, Rule.optional, ran]
    refine missing _ ((here.onward ahead).restored marked) ?_
    change middle.scope.truncate mark.sizes = r.scope
    rw [own, kept, Scope.truncate_sizes]

theorem word {next : Bytes → Rule β} (empty : Runs o moved s (next []) success)
    (nonempty : ∀ found, found ≠ [] → (∃ text, found = Reader.leadingWord text) → Runs o true s (next found) success) :
    Runs o moved s (Rule.word >>= next) success := by
  rintro r here rfl
  change (next (r.word env.source).1 env (r.word env.source).2).Fits o success
  by_cases nothing : (r.word env.source).1 = []
  · rw [nothing]
    exact empty _ (here.onward (Reader.word_ahead r)) rfl
  · exact nonempty _ nothing ⟨_, rfl⟩ _ (here.later (Reader.word_later nothing)) rfl

theorem name {next : Bytes → Rule β}
    (second : ∀ found, found ≠ [] → (∃ text, found = lower (Reader.leadingWord text)) → Runs o true s (next found) success)
    [undoes : o.Undoes s] :
    Runs o moved s (Rule.name c what >>= next) success := by
  have first : Runs o moved s (Rule.name c what) fun found further t =>
      further = true ∧ t = s ∧ found ≠ [] ∧ ∃ text, found = lower (Reader.leadingWord text) := by
    refine word ?_ fun found _ ⟨text, isWord⟩ => ?_
    · exact reject
    · dsimp only
      split
      · exact reject
      · rename_i proper
        refine pure ⟨rfl, rfl, ?_, text, congrArg lower isWord⟩
        simp only [Bool.or_eq_true, not_or, List.isEmpty_iff] at proper
        exact proper.1
  refine first.bind fun found further t reached => ?_
  obtain ⟨rfl, rfl, nonempty, spelling⟩ := reached
  exact second found nonempty spelling

theorem marked {next : Checkpoint → Rule β}
    (second : ∀ mark : Checkpoint, o.At moved mark.pos → mark.sizes = s.sizes → Runs o moved s (next mark) success) :
    Runs o moved s (Rule.checkpoint >>= next) success := by
  rintro r here rfl
  exact second r.checkpoint here rfl r here rfl

theorem restored {next : Unit → Rule β} (marked : o.At moved mark.pos) (own : mark.sizes = s.sizes)
    (second : Runs o moved s (next ()) success) :
    Runs o moved s (Rule.restore mark >>= next) success := by
  rintro r here rfl
  refine second (r.restore mark) (here.restored marked) ?_
  change r.scope.truncate mark.sizes = r.scope
  rw [own, Scope.truncate_sizes]

theorem own (at_entry : o.entry = r.pos) (runs : Runs o false r.scope (body r.checkpoint) success) :
    ((Rule.checkpoint >>= body) env r).Fits o success :=
  runs r (Or.inl at_entry.symm) rfl

theorem whetherAtEnd {next : Bool → Rule β} (ended : Runs o moved s (next true) success)
    (going : 0 < env.source.remaining o.entry → Runs o moved s (next false) success) :
    Runs o moved s (Rule.atEnd >>= next) success := by
  intro r here same
  change (next (r.atEnd env.source) env r).Fits o success
  cases atEnd : r.atEnd env.source with
  | true => exact ended r here same
  | false =>
    have more := Reader.remaining_pos_of_not_atEnd atEnd
    have fewer := here.ahead.remaining_le
    exact going (by omega) r here same

theorem restOfLine {next : Bytes → Rule β} (going : 0 < env.source.remaining o.entry)
    (second : ∀ line, Runs o true s (next line) success) : Runs o moved s (Rule.restOfLine >>= next) success := by
  rintro r here rfl
  refine second _ _ ?_ (Reader.restOfLine_scope env.source r)
  rcases here.ahead with entry | later
  · exact here.later (Reader.restOfLine_later (entry ▸ going))
  · exact later.then_ahead (Reader.restOfLine_ahead r)

variable {grows : α → Scope → Scope → Prop} {spent : Position → Prop}

theorem called (settles : Settles env grows spent rule) (exhausts : o.Covers moved spent)
    (second : ∀ value t, grows value s t → Runs o true t (next value) success) [undoes : o.Undoes s] :
    Runs o moved s (Rule.orReject rule c reason >>= next) success := by
  rintro r here rfl
  have outcome := settles r
  simp only [bind_apply, Rule.orReject]
  generalize rule env r = reply at outcome ⊢
  cases reply with
  | ok value after => exact second value after.scope outcome.2 after (here.later outcome.1) rfl
  | fail after => exact Attempt.Undoes.reject (outcome.2 ▸ undoes) (outcome.1 ▸ here) reason
  | exhausted => exact exhausts r.pos here outcome

theorem calledSilently (settles : Settles env grows spent rule)
    (exhausts : o.Covers moved spent)
    (second : ∀ value t, grows value s t → Runs o true t (next value) success) [undoes : o.Undoes s] :
    Runs o moved s (Rule.orRestore rule c >>= next) success := by
  rintro r here rfl
  have outcome := settles r
  simp only [bind_apply, Rule.orRestore]
  generalize rule env r = reply at outcome ⊢
  cases reply with
  | ok value after => exact second value after.scope outcome.2 after (here.later outcome.1) rfl
  | fail after => exact Attempt.Undoes.restore (outcome.2 ▸ undoes) (outcome.1 ▸ here)
  | exhausted => exact exhausts r.pos here outcome

variable {holds : α → Scope → Prop}

theorem read (settles : Settles env (Yields holds) spent rule) (exhausts : o.Covers moved spent)
    (second : ∀ value, holds value s → Runs o true s (next value) success) [undoes : o.Undoes s] :
    Runs o moved s (Rule.orReject rule c reason >>= next) success :=
  called settles exhausts fun value _ found => found.1.symm ▸ second value found.2

theorem readSilently (settles : Settles env (Yields holds) spent rule)
    (exhausts : o.Covers moved spent)
    (second : ∀ value, holds value s → Runs o true s (next value) success) [undoes : o.Undoes s] :
    Runs o moved s (Rule.orRestore rule c >>= next) success :=
  calledSilently settles exhausts fun value _ found => found.1.symm ▸ second value found.2

theorem whetherCalled {next : Option α → Rule β} (settles : Settles env grows spent rule)
    (exhausts : o.Covers moved spent)
    (found : ∀ value t, grows value s t → Runs o true t (next (some value)) success)
    (missing : Runs o moved s (next none) success) : Runs o moved s (Rule.optional rule >>= next) success := by
  rintro r here rfl
  have outcome := settles r
  simp only [bind_apply, Rule.optional]
  generalize rule env r = reply at outcome ⊢
  cases reply with
  | ok value after => exact found value after.scope outcome.2 after (here.later outcome.1) rfl
  | fail after => exact missing after (outcome.1 ▸ here) outcome.2
  | exhausted => exact exhausts r.pos here outcome

theorem orElse (settles : Settles env grows spent rule) (exhausts : o.Covers moved spent)
    (found : ∀ value t, grows value s t → reads value true t) (second : Runs o moved s other reads) :
    Runs o moved s (Rule.orElse rule other) reads := by
  rintro r here rfl
  have outcome := settles r
  simp only [Rule.orElse]
  generalize rule env r = reply at outcome ⊢
  cases reply with
  | ok value after => exact ⟨true, here.later outcome.1, found value after.scope outcome.2⟩
  | fail after => exact second after (outcome.1 ▸ here) outcome.2
  | exhausted => exact exhausts r.pos here outcome

theorem follow (follows : Follows env c grows spent rule) (exhausts : o.Covers moved spent)
    [undoes : o.Undoes s] : Runs o moved s rule fun value further t => further = moved ∧ grows value s t := by
  rintro r here rfl
  have outcome := follows r
  generalize rule env r = reply at outcome ⊢
  cases reply with
  | ok value after => exact ⟨moved, here.onward outcome.1, rfl, outcome.2⟩
  | fail after =>
    obtain ⟨back, t, grown, left⟩ := outcome
    refine ⟨fun behind => back (behind.trans here.ahead), ?_⟩
    rw [left]
    exact undoes.gone t grown
  | exhausted => exact exhausts r.pos here outcome

theorem followed (follows : Follows env c grows spent rule) (exhausts : o.Covers moved spent)
    (second : ∀ value t, grows value s t → Runs o moved t (next value) success) [undoes : o.Undoes s] :
    Runs o moved s (rule >>= next) success := by
  refine (follow follows exhausts).bind fun value further t reached => ?_
  obtain ⟨rfl, grown⟩ := reached
  exact second value t grown

theorem passed (follows : Follows env c (Yields holds) spent rule)
    (exhausts : o.Covers moved spent)
    (second : ∀ value, holds value s → Runs o moved s (next value) success) [undoes : o.Undoes s] :
    Runs o moved s (rule >>= next) success :=
  followed follows exhausts fun value _ found => found.1.symm ▸ second value found.2

theorem followLast (follows : Follows env c grows spent rule)
    (exhausts : o.Covers moved spent) [undoes : o.Undoes s] :
    Runs o moved s rule fun value _ t => grows value s t :=
  (follow follows exhausts).imp fun _ _ _ reached => reached.2

end Runs

variable {grows : α → Scope → Scope → Prop} {spent : Position → Prop} {rule : Rule α} {r : Reader}

theorem Settles.imp (settles : Settles env grows spent rule) (grown : ∀ value s t, grows value s t → wider value s t)
    (exhausts : ∀ pos, spent pos → weaker pos) : Settles env wider weaker rule :=
  fun r => (settles r).imp (grown · r.scope) (exhausts r.pos)

theorem Settles.orElse (first : Settles env grows spent rule) (second : Settles env grows spent other) :
    Settles env grows spent (orElse rule other) := by
  intro r
  have outcome := first r
  simp only [Rule.orElse]
  generalize rule env r = reply at outcome ⊢
  cases reply with
  | ok value after => exact outcome
  | fail after =>
    have later := second after
    simpa only [Reply.Settled, outcome.1, outcome.2] using later
  | exhausted => exact outcome

theorem Settles.of_ok (settles : Settles env grows spent rule) {value : α} (ran : rule env r = .ok value after) :
    grows value r.scope after.scope := by
  have outcome := settles r
  rw [ran] at outcome
  exact outcome.2

theorem Follows.of_ok (follows : Follows env c grows spent rule) {value : α} (ran : rule env r = .ok value after) :
    grows value r.scope after.scope := by
  have outcome := follows r
  rw [ran] at outcome
  exact outcome.2

theorem Settles.ran (settles : Settles env grows spent rule) :
    Settles env (fun value s t => grows value s t ∧ ∃ before after, before.scope = s ∧ rule env before = .ok value after)
      spent rule := by
  intro r
  have outcome := settles r
  cases reply : rule env r with
  | ok value after =>
    rw [reply] at outcome
    exact ⟨outcome.1, outcome.2, r, after, rfl, reply⟩
  | fail after => rwa [reply] at outcome
  | exhausted => rwa [reply] at outcome

theorem orReject_ok {value : α} (ran : orReject rule c reason env r = .ok value after) :
    rule env r = .ok value after := by
  simp only [orReject] at ran
  split at ran
  · cases ran
  · exact ran

theorem Settles.kept (settles : Settles env (Yields holds) spent rule) :
    Settles env Kept spent rule := settles.imp (fun _ _ _ => And.left) fun _ => id

theorem Settles.map {f : α → β} (settles : Settles env Kept spent rule) :
    Settles env Kept spent (rule >>= fun value => pure (f value)) := by
  intro r
  have outcome := settles r
  rw [bind_apply]
  generalize rule env r = reply at outcome ⊢
  cases reply with
  | ok value after => exact outcome
  | fail after => exact outcome
  | exhausted => exact outcome

theorem Settles.peeked (second : ∀ code, Settles env grows spent (next code)) :
    Settles env grows spent (peek >>= next) := fun r => second (r.peek env.source) r

theorem Settles.self (settles : Settles env grows spent rule) :
    Settles env grows (fun pos => ∃ r : Reader, r.pos = pos ∧ rule env r = .exhausted) rule := by
  intro r
  have outcome := settles r
  cases ran : rule env r with
  | ok value after => simpa only [ran, Reply.Settled] using outcome
  | fail after => simpa only [ran, Reply.Settled] using outcome
  | exhausted => exact ⟨r, rfl, ran⟩

theorem Follows.self (follows : Follows env c grows spent rule) :
    Follows env c grows (fun pos => ∃ r : Reader, r.pos = pos ∧ rule env r = .exhausted) rule := by
  intro r
  have outcome := follows r
  cases ran : rule env r with
  | ok value after => simpa only [ran, Reply.Followed] using outcome
  | fail after => simpa only [ran, Reply.Followed] using outcome
  | exhausted => exact ⟨r, rfl, ran⟩

theorem Settles.spent_of (settles : Settles env grows spent rule) (ran : rule env r = .exhausted) : spent r.pos := by
  have outcome := settles r
  rwa [ran] at outcome

theorem Follows.spent_of (follows : Follows env c grows spent rule) (ran : rule env r = .exhausted) : spent r.pos := by
  have outcome := follows r
  rwa [ran] at outcome

def ownAttempt (env : Env) (r : Reader) (spent : Prop) : Attempt env r.checkpoint :=
  { entry := r.pos, lost := (· = r.scope), spent }

instance (env : Env) (r : Reader) (spent : Prop) : (ownAttempt env r spent).Undoes r.scope :=
  ⟨fun _ grown => grown.truncate⟩

theorem settled_of_fits {reply : Reply α}
    (fits : reply.Fits (ownAttempt env r (spent r.pos)) fun value further t => further = true ∧ grows value r.scope t) :
    reply.Settled env grows spent r := by
  cases reply with
  | ok value after =>
    obtain ⟨further, there, rfl, grown⟩ := fits
    exact ⟨there, grown⟩
  | fail after => exact ⟨fits.1 (.refl _), fits.2⟩
  | exhausted => exact fits

theorem Settles.start
    (runs : ∀ (c : Checkpoint) (o : Attempt env c) (s : Scope), c.sizes = s.sizes → [o.Undoes s] →
      (spent o.entry → o.spent) → Runs o false s (body c) fun value further t => further = true ∧ grows value s t) :
    Settles env grows spent (checkpoint >>= body) := by
  intro r
  apply settled_of_fits
  exact Runs.own rfl (runs r.checkpoint (ownAttempt env r _) r.scope rfl id)

theorem Settles.startWith {next : Checkpoint → α → Rule β} {wider : β → Scope → Scope → Prop}
    {holds : α → Scope → Prop} (first : Settles env (Yields holds) spent rule)
    (runs : ∀ (c : Checkpoint) (o : Attempt env c) (s : Scope) (value : α) [o.Undoes s], holds value s →
      Runs o true s (next c value) fun read further t => further = true ∧ wider read s t) :
    Settles env wider spent (checkpoint >>= fun c => rule >>= next c) := by
  intro r
  have outcome := first r
  change (Rule.bind rule (next r.checkpoint) env r).Settled env wider spent r
  simp only [Rule.bind]
  generalize rule env r = reply at outcome ⊢
  cases reply with
  | ok value after =>
    apply settled_of_fits
    exact runs _ (ownAttempt env r _) r.scope value outcome.2.2 after outcome.1 outcome.2.1
  | fail after => exact outcome
  | exhausted => exact outcome

theorem Follows.start
    (runs : ∀ (o : Attempt env c) (s : Scope) [o.Undoes s], (spent o.entry → o.spent) →
      Runs o false s rule fun value _ t => grows value s t) : Follows env c grows spent rule := by
  intro r
  let going : Attempt env c :=
    { entry := r.pos, spent := spent r.pos
      lost := fun left => ∃ t : Scope, t.Extends r.scope ∧ left = t.truncate c.sizes }
  have undoes : going.Undoes r.scope := ⟨fun t grown => ⟨t, grown, rfl⟩⟩
  have outcome := runs going r.scope id r (Source.Ahead.refl r.pos) rfl
  change (rule env r).Fits going _ at outcome
  generalize rule env r = reply at outcome ⊢
  cases reply with
  | ok value after =>
    obtain ⟨further, there, grown⟩ := outcome
    exact ⟨there.ahead, grown⟩
  | fail after => exact outcome
  | exhausted => exact outcome

end Rule

end Cb
