import Cb.Proofs.ExpressionNames
import Cb.Proofs.OperatorGrammar
import Cb.Proofs.RewrittenRuns
import Cb.Proofs.Termination

/-! What the rules read where a given text stands: types, variables, and expressions in parentheses. A rule that reads
nothing there fails, since no count runs out. -/

namespace Cb

def Position.right (pos : Position) (count : Nat) : Position := ⟨pos.line, pos.column + count⟩

theorem Position.right_right (pos : Position) (first second : Nat) :
    (pos.right first).right second = pos.right (first + second) := by
  simp only [right, Nat.add_assoc]

/-- A scope as declarations leave it: it has the types that are built in, and no variable is called like a word of the
language. -/
structure Scope.IsUsual (s : Scope) : Prop where
  builtins : s.types = Ty.builtins
  unreserved : ∀ entry ∈ s.stack, entry.isNamed = true

structure Scope.HasVariable (s : Scope) (written : Bytes) (v : Variable) : Prop where
  starts : written.head?.any (startsWord ·.toNat) = true
  continues : ∀ b ∈ written, continuesWord b.toNat = true
  found : s.findVariable? (lower written) = some v

theorem Scope.IsUsual.unreserved_word {s : Scope} (usual : s.IsUsual) (found : s.findVariable? (lower written) = some v)
    : isReserved written = false := by
  rw [← Rewriting.Scopes.isReserved_lower, ← Rewriting.Scopes.isReserved_lower]
  exact Rewriting.Scopes.unreserved_of_findFrom usual.unreserved found

namespace Source

variable {source : Source} {p : Position} {text rest : Bytes} {b : UInt8}

theorem restAt_right (text : Bytes) (here : source.restAt p = text ++ rest) : source.restAt (p.right text.length) = rest := by
  simp only [restAt, Position.right] at here ⊢
  rw [← List.drop_drop, here, List.drop_left]

theorem charAt_of_restAt (here : source.restAt p = b :: rest) : source.charAt p = b.toNat :=
  Reader.peek_of_restAt.2 b rest here

theorem next_of_restAt (here : source.restAt p = b :: rest) (proper : b.toNat ≠ endOfFile ∧ b.toNat ≠ endOfLine) :
    source.next p = p.right 1 := by
  have found : Reader.peek source { pos := p } = b.toNat := charAt_of_restAt here
  rw [next, Reader.advance, found, if_neg proper.1, if_neg proper.2]
  rfl

theorem shown_of_restAt (here : source.restAt p = text) (shown : text.head?.any (!Reader.isSkipped ·.toNat) = true) :
    Reader.isSkipped (source.charAt p) = false := by
  cases text with
  | nil => cases shown
  | cons b rest =>
    rw [charAt_of_restAt here]
    simpa using shown

theorem remaining_right (text : Bytes) (here : source.restAt p = text ++ rest) :
    source.remaining (p.right text.length) + text.length = source.remaining p := by
  cases line : source.lines[p.line]? with
  | none =>
    simp only [restAt, line, Option.getD_none, List.drop_nil] at here
    obtain ⟨rfl, rfl⟩ := List.append_eq_nil_iff.mp here.symm
    rfl
  | some whole =>
    have long : whole.length - p.column = text.length + rest.length := by
      rw [← List.length_append, ← here, restAt, line, Option.getD_some, List.length_drop]
    have before : source.remaining p = _ := remaining_eq line p.column
    have behind : source.remaining (p.right text.length) = _ := remaining_eq line (p.column + text.length)
    omega

def skipped (source : Source) (p : Position) : Position := (Reader.skip source { pos := p }).2.pos

end Source

namespace Reader

variable {source : Source}

theorem skipUpTo_pos (limit : Nat) (r : Reader) :
    (skipUpTo source limit r).2.pos = (skipUpTo source limit { pos := r.pos }).2.pos := by
  induction limit generalizing r with
  | zero => rfl
  | succ limit ih =>
    have same : peek source { pos := r.pos } = r.peek source := rfl
    simp only [skipUpTo, same]
    split
    · rw [ih (r.advance source), ih (advance source { pos := r.pos }), advance_pos, advance_pos]
    · rfl

theorem skip_pos (r : Reader) : (r.skip source).2.pos = source.skipped r.pos := skipUpTo_pos source.size r

theorem skip_of_shown {r : Reader} (shown : isSkipped (r.peek source) = false) : (r.skip source).2 = r := by
  rw [skip]
  cases source.size with
  | zero => rfl
  | succ limit => rw [skipUpTo, if_neg (by simp [shown])]

end Reader

theorem Source.skipped_of_shown {source : Source} (shown : Reader.isSkipped (source.charAt p) = false) :
    source.skipped p = p := by
  rw [skipped, Reader.skip_of_shown (r := { pos := p }) shown]

namespace Rule

open Source (restAt_right charAt_of_restAt shown_of_restAt skipped_of_shown next_of_restAt)

variable {α β : Type} {env : Env} {s : Scope} {p q t : Position} {n : Nat}

def Takes (env : Env) (s : Scope) (p : Position) (rule : Rule α) (value : α) (q : Position) : Prop :=
  ∀ r : Reader, r.scope = s → r.pos = p → ∃ after, rule env r = .ok value after ∧ after.scope = s ∧ after.pos = q

def Refuses (env : Env) (s : Scope) (p : Position) (rule : Rule α) : Prop :=
  ∀ r : Reader, r.scope = s → r.pos = p → ∃ after, rule env r = .fail after ∧ after.scope = s ∧ after.pos = p

abbrev Unread (env : Env) (s : Scope) (p : Position) (rule : Rule α) : Prop :=
  Passes env s p rule fun _ _ _ => False

variable {rest text : Bytes} {rule : Rule α}

theorem Unread.bind (unread : Unread env s p rule) : Unread env s p (rule >>= next) :=
  Passes.bind unread fun _ _ _ => False.elim

theorem Unread.refuses (unread : Unread env s p rule) (settles : Settles env grows spent rule) (lasts : ¬ spent p) :
    Refuses env s p rule := by
  rintro r rfl rfl
  have outcome := settles r
  cases ran : rule env r with
  | ok value after => exact (unread r after value rfl rfl ran).elim
  | fail after =>
    rw [ran] at outcome
    exact ⟨after, rfl, outcome.2, outcome.1⟩
  | exhausted =>
    rw [ran] at outcome
    exact absurd outcome lasts

namespace Takes

variable {rule other : Rule α} {value : α}

theorem pure (value : α) : Takes env s p (Pure.pure value : Rule α) value p :=
  fun r here at_p => ⟨r, rfl, here, at_p⟩

theorem bind (first : Takes env s p rule value q) (second : Takes env s q (next value) result t) :
    Takes env s p (rule >>= next) result t := by
  intro r here at_p
  obtain ⟨between, read, same, at_q⟩ := first r here at_p
  obtain ⟨after, ran, kept, at_t⟩ := second between same at_q
  refine ⟨after, ?_, kept, at_t⟩
  simp only [bind_apply, read, ran]

theorem passes (takes : Takes env s p rule value q) :
    Passes env s p rule fun result t at_q => result = value ∧ t = s ∧ at_q = q := by
  intro r after result here at_p ran
  obtain ⟨_, read, same, at_q⟩ := takes r here at_p
  obtain ⟨rfl, rfl⟩ := Reply.ok.inj (ran.symm.trans read)
  exact ⟨rfl, same, at_q⟩

theorem checkpoint (takes : Takes env s p (next ⟨p, s.sizes⟩) value q) :
    Takes env s p (checkpoint >>= next) value q := by
  rintro r rfl rfl
  exact takes r rfl rfl

theorem scope (takes : Takes env s p (next s) value q) : Takes env s p (scope >>= next) value q := by
  rintro r rfl rfl
  exact takes r rfl rfl

theorem peek (takes : Takes env s p (next (env.source.charAt p)) value q) :
    Takes env s p (peek >>= next) value q := by
  rintro r rfl rfl
  exact takes r rfl rfl

theorem sourceSize (takes : Takes env s p (next env.source.size) value q) :
    Takes env s p (sourceSize >>= next) value q := by
  rintro r rfl rfl
  exact takes r rfl rfl

theorem word (takes : Takes env s (env.source.afterWord p) (next (env.source.wordAt p)) value q) :
    Takes env s p (word >>= next) value q := by
  rintro r rfl rfl
  exact takes { r with pos := env.source.afterWord r.pos } rfl rfl

theorem skip : Takes env s p skip () (env.source.skipped p) := by
  rintro r rfl rfl
  exact ⟨(r.skip env.source).2, rfl, Reader.skipUpTo_scope .., Reader.skip_pos r⟩

theorem skip_shown (shown : Reader.isSkipped (env.source.charAt p) = false) : Takes env s p Rule.skip () p := by
  have skip : Takes env s p Rule.skip () (env.source.skipped p) := skip
  rwa [skipped_of_shown shown] at skip

variable {c : Checkpoint} {character : Char}

theorem restore (ahead : env.source.Ahead c.pos p) (own : c.sizes = s.sizes) : Takes env s p (restore c) () c.pos := by
  rintro r rfl rfl
  refine ⟨r.restore c, rfl, ?_, Reader.restore_pos ahead⟩
  change r.scope.truncate c.sizes = r.scope
  rw [own, Scope.truncate_sizes]

theorem expect (found : env.source.charAt p = character.toNat) :
    Takes env s p (expect character c) () (env.source.next p) := by
  rintro r rfl rfl
  have found : r.peek env.source = character.toNat := found
  refine ⟨r.advance env.source, ?_, Reader.advance_scope _ r, Reader.advance_pos r⟩
  simp only [Rule.expect, require, Reader.expect, if_pos found]

theorem test (found : env.source.charAt p = character.toNat) :
    Takes env s p (test character) true (env.source.next p) := by
  rintro r rfl rfl
  have found : r.peek env.source = character.toNat := found
  refine ⟨r.advance env.source, ?_, Reader.advance_scope _ r, Reader.advance_pos r⟩
  simp only [Rule.test, tries, Reader.test, if_pos found]

theorem test_other (other : env.source.charAt p ≠ character.toNat) : Takes env s p (Rule.test character) false p := by
  rintro r rfl rfl
  have other : r.peek env.source ≠ character.toNat := other
  refine ⟨r, ?_, rfl, rfl⟩
  simp only [Rule.test, tries, Reader.test, if_neg other]

theorem orReject (takes : Takes env s p rule value q) :
    Takes env s p (orReject rule c reason) value q := by
  intro r here at_p
  obtain ⟨after, ran, kept⟩ := takes r here at_p
  exact ⟨after, by simp only [Rule.orReject, ran], kept⟩

theorem orRestore (takes : Takes env s p rule value q) : Takes env s p (orRestore rule c) value q := by
  intro r here at_p
  obtain ⟨after, ran, kept⟩ := takes r here at_p
  exact ⟨after, by simp only [Rule.orRestore, ran], kept⟩

theorem orElse (takes : Takes env s p rule value q) : Takes env s p (orElse rule other) value q := by
  intro r here at_p
  obtain ⟨after, ran, kept⟩ := takes r here at_p
  exact ⟨after, by simp only [Rule.orElse, ran], kept⟩

theorem orElse_refused (refuses : Refuses env s p rule) (takes : Takes env s p other value q) :
    Takes env s p (Rule.orElse rule other) value q := by
  intro r here at_p
  obtain ⟨failed, ran, same, back⟩ := refuses r here at_p
  obtain ⟨after, read, kept⟩ := takes failed same back
  exact ⟨after, by simp only [Rule.orElse, ran, read], kept⟩

end Takes

theorem Takes.mark {character : Char} (here : env.source.restAt p = byte character :: rest)
    (proper : (byte character).toNat = character.toNat ∧ character.toNat ≠ endOfFile ∧ character.toNat ≠ endOfLine) :
    Takes env s p (Rule.expect character c) () (p.right 1) := by
  obtain ⟨same, proper⟩ := proper
  rw [← same] at proper
  rw [← next_of_restAt here proper]
  exact .expect ((charAt_of_restAt here).trans same)

theorem stars_takes {limit depth : Nat} (enough : depth < limit)
    (here : env.source.restAt p = List.replicate depth 42 ++ byte ')' :: rest) :
    Takes env s p (stars limit) depth (p.right depth) := by
  induction depth generalizing limit p with
  | zero =>
    obtain ⟨limit, rfl⟩ := Nat.exists_eq_succ_of_ne_zero (Nat.ne_of_gt enough)
    have next : env.source.charAt p = _ := charAt_of_restAt here
    have other : env.source.charAt p ≠ '*'.toNat := by
      rw [next]
      decide
    exact .bind (.test_other other) (.pure 0)
  | succ depth ih =>
    obtain ⟨limit, rfl⟩ := Nat.exists_eq_succ_of_ne_zero (Nat.ne_of_gt (Nat.lt_of_le_of_lt (Nat.zero_le _) enough))
    rw [List.replicate_succ, List.cons_append] at here
    have next : env.source.next p = p.right 1 := next_of_restAt here (by decide)
    have behind : env.source.restAt (p.right 1) = _ := restAt_right [42] here
    have shown : Reader.isSkipped (env.source.charAt (p.right 1)) = false :=
      shown_of_restAt behind (by cases depth <;> rfl)
    have rest := ih (Nat.lt_of_succ_lt_succ enough) behind
    rw [Position.right_right, Nat.add_comm 1 depth] at rest
    refine .bind (.test (charAt_of_restAt here)) ?_
    rw [next]
    exact .bind (.skip_shown shown) (.bind rest (.pure _))

theorem findType?_name {t : Ty} (named : t.IsNamed) (usual : s.IsUsual) :
    s.findType? t.base.name = some ⟨t.base, 0⟩ := by
  rw [Scope.findType?, usual.builtins]
  rcases named with base | base | base <;> rw [base] <;> decide

theorem isKeyword_name {t : Ty} (named : t.IsNamed) : Reader.IsKeyword t.base.name := by
  rcases named with base | base | base <;> rw [base] <;> decide +kernel

theorem type_shown {t : Ty} (named : t.IsNamed) (rest : Bytes) :
    (t.text ++ rest).head?.any (!Reader.isSkipped ·.toNat) = true := by
  rw [Ty.text]
  rcases named with base | base | base <;> rw [base] <;> rfl

theorem wordAt_type {t : Ty} (named : t.IsNamed) (here : env.source.restAt p = t.text ++ byte ')' :: rest) :
    env.source.wordAt p = t.base.name := by
  obtain ⟨_, starts, continues, _⟩ := isKeyword_name named
  rw [Source.wordAt, here, Ty.text, List.append_assoc]
  exact Reader.leadingWord_append starts continues (by cases t.depth <;> rfl)

theorem dataType_takes {t : Ty} (named : t.IsNamed) (usual : s.IsUsual)
    (here : env.source.restAt p = t.text ++ byte ')' :: rest) : Takes env s p dataType t (p.right t.text.length) := by
  have word := wordAt_type named here
  have there : env.source.afterWord p = p.right t.base.name.length := by rw [Source.afterWord, word, Position.right]
  have nonempty : ¬ t.base.name.isEmpty = true := by
    rcases named with base | base | base <;> rw [base] <;> decide
  rw [Ty.text, List.append_assoc] at here
  have behind := restAt_right _ here
  have few : t.depth < env.source.size + 1 := by
    have counted := Source.remaining_right _ behind
    have bound := env.source.remaining_le_size (p.right t.base.name.length)
    rw [List.length_replicate] at counted
    omega
  have depth := stars_takes (s := s) few behind
  refine .checkpoint <| .word ?_
  rw [there, word, if_neg nonempty]
  refine .scope ?_
  rw [findType?_name named usual]
  refine .bind (.skip_shown (shown_of_restAt behind (by cases t.depth <;> rfl))) <| .sourceSize <| .bind depth ?_
  rw [Position.right_right, Ty.text, List.length_append, List.length_replicate]
  exact .pure t

structure PlainWord (source : Source) (p : Position) : Prop where
  starts : startsWord (source.charAt p) = true
  notNull : source.wordAt p ≠ utf8 "NULL"
  notSizeof : source.wordAt p ≠ utf8 "sizeof"
  uncalled : source.charAt (source.afterWord p) ≠ '('.toNat

theorem PlainWord.ne (word : PlainWord env.source p) (mark : startsWord code = false) :
    env.source.charAt p ≠ code := by
  rintro rfl
  rw [word.starts] at mark
  cases mark

theorem PlainWord.notDigit (word : PlainWord env.source p) : isDigit (env.source.charAt p) = false := by
  have starts := word.starts
  simp only [startsWord, isLetter, isDigit] at starts ⊢
  grind

theorem Takes.testText_other (code : Nat) (codes : List Nat) (isText : codePoints text = code :: codes)
    (other : env.source.charAt p ≠ code) : Takes env s p (testText text) false p := by
  rintro r rfl rfl
  have other : r.peek env.source ≠ code := other
  have stays : env.source.Ahead r.pos r.pos := .refl r.pos
  refine ⟨r.restore r.checkpoint, ?_, Scope.truncate_sizes r.scope, Reader.restore_pos stays⟩
  simp only [testText, tries, Reader.testText, isText, Reader.testCodes, Reader.test, if_neg other]

theorem Takes.unread {next : α → Rule β} {value : α} (takes : Takes env s p rule value q)
    (unread : Unread env s q (next value)) : Unread env s p (rule >>= next) := by
  refine takes.passes.bind fun found t there same => ?_
  obtain ⟨rfl, rfl, rfl⟩ := same
  exact unread

theorem keyword_unread (isKeyword : Reader.IsKeyword text) (other : env.source.wordAt p ≠ text) :
    Unread env s p (keyword text c) := by
  rintro r after _ rfl rfl ran
  rw [keyword_eq] at ran
  split at ran
  · rename_i reached read
    split at ran
    · cases ran
    · rename_i stops
      exact other (Reader.expectText_keyword isKeyword read (Bool.eq_false_iff.mpr stops)).1
  · cases ran

namespace PlainWord

variable (word : PlainWord env.source p)
include word

theorem null : Unread env s p null :=
  .checkpoint (Unread.bind (keyword_unread (by decide +kernel) word.notNull))

theorem sizeOf : Unread env s p sizeOf :=
  .checkpoint (Unread.bind (keyword_unread (by decide +kernel) word.notSizeof))

theorem increment (n : Nat) : Unread env s p (increment n) := by
  cases n with
  | zero => exact .exhausted
  | succ n =>
    refine .checkpoint <| (Takes.testText_other '+'.toNat ['+'.toNat] (by decide +kernel) (word.ne rfl)).unread ?_
    exact (Takes.testText_other '-'.toNat ['-'.toNat] (by decide +kernel) (word.ne rfl)).unread .fails

theorem cast (n : Nat) : Unread env s p (cast n) := by
  cases n with
  | zero => exact .exhausted
  | succ n => exact .checkpoint <| .expect fun found => absurd found (word.ne rfl)

theorem call (n : Nat) : Unread env s p (call n) := by
  cases n with
  | zero => exact .exhausted
  | succ n =>
    refine .checkpoint <| .word ?_
    dsimp only
    split
    · exact .reject
    · exact .expect fun found => absurd found word.uncalled

theorem literal : Unread env s p literal := by
  refine .checkpoint <| (Takes.test_other (word.ne rfl)).unread ?_
  refine .choose (fun found => absurd found (word.ne rfl)) <| .peek ?_
  rw [if_neg (by simp [word.notDigit])]
  exact .reject

theorem deref (n : Nat) : Unread env s p (deref n) := by
  cases n with
  | zero => exact .exhausted
  | succ n => exact .checkpoint <| .expect fun found => absurd found (word.ne rfl)

theorem reference (n : Nat) : Unread env s p (reference n) := by
  cases n with
  | zero => exact .exhausted
  | succ n => exact .checkpoint <| .expect fun found => absurd found (word.ne rfl)

end PlainWord

theorem namedVariable_unread (missing : s.findVariable? (lower (env.source.wordAt p)) = none) :
    Unread env s p namedVariable := by
  refine .checkpoint <| .word ?_
  dsimp only
  split
  · exact .reject
  · refine .scope ?_
    rw [missing]
    exact .reject

namespace PlainWord

variable (word : PlainWord env.source p) (missing : s.findVariable? (lower (env.source.wordAt p)) = none)
include word missing

theorem value_unread (n : Nat) : Unread env s p (value n) := by
  cases n with
  | zero => exact .exhausted
  | succ n =>
    have reads := expressionsSettle env n
    have named := namedVariable_unread missing
    have access : Unread env s p (arrayAccess n) := by
      cases n with
      | zero => exact .exhausted
      | succ n => exact .checkpoint (Unread.bind (.orRestore named))
    refine .orElse null_settles word.null <| .orElse reads.increment (word.increment n) <|
      .orElse reads.cast (word.cast n) <| .orElse sizeOf_settles word.sizeOf <| .orElse reads.call (word.call n) <|
      .orElse reads.arrayAccess access <| .orElse namedVariable_settles named <|
      .orElse literal_settles word.literal <| .orElse reads.deref (word.deref n) <|
      .orElse reads.reference (word.reference n) ?_
    intro r after value _ _ ran
    cases ran

theorem expression_unread (n : Nat) : Unread env s p (expression n) := by
  have operand (n : Nat) : Unread env s p (operand n) := by
    cases n with
    | zero => exact .exhausted
    | succ n =>
      refine .orElse (expressionsSettle env n).cast (word.cast n) <| .peek ?_
      rw [if_neg (word.ne rfl)]
      exact word.value_unread missing n
  cases n with
  | zero => exact .exhausted
  | succ n => exact .checkpoint (Unread.bind (.orReject (operand n)))

end PlainWord

theorem plainWord_type {t : Ty} (named : t.IsNamed) (here : env.source.restAt p = t.text ++ byte ')' :: rest) :
    PlainWord env.source p := by
  have word := wordAt_type named here
  rw [Ty.text, List.append_assoc] at here
  have there : env.source.restAt (env.source.afterWord p) = List.replicate t.depth 42 ++ byte ')' :: rest := by
    rw [Source.afterWord, word]
    exact restAt_right _ here
  constructor
  · apply Uses.startsWord_of_wordAt
    rw [word]
    rcases named with base | base | base <;> rw [base] <;> decide
  · rw [word]
    rcases named with base | base | base <;> rw [base] <;> decide
  · rw [word]
    rcases named with base | base | base <;> rw [base] <;> decide
  · cases depth : t.depth with
    | zero =>
      rw [depth] at there
      rw [charAt_of_restAt there]
      decide
    | succ fewer =>
      rw [depth, List.replicate_succ, List.cons_append] at there
      rw [charAt_of_restAt there]
      decide

theorem type_missing {t : Ty} (named : t.IsNamed) (usual : s.IsUsual) :
    s.findVariable? (lower t.base.name) = none := by
  cases found : s.findVariable? (lower t.base.name) with
  | none => rfl
  | some v =>
    have unreserved := usual.unreserved_word found
    rw [(isKeyword_name named).1] at unreserved
    cases unreserved

theorem operator_closed (closed : env.source.charAt p = ')'.toNat) :
    Passes env s p operator fun found _ _ => found = none := by
  have other {character : Char} (differs : ')'.toNat ≠ character.toNat := by decide) {rule : Rule (Option Operator)}
      (found : env.source.charAt p = character.toNat) : Passes env s (env.source.next p) rule fun found _ _ => found = none :=
    absurd (closed.symm.trans found) differs
  refine .checkpoint <| .choose other <| .choose other <| .choose other <| .choose other <| .choose other <|
    .choose other <| .choose other <| .choose other <| .choose other <| .choose other <| .choose other <| .choose other ?_
  intro r after value _ _ ran
  cases ran
  rfl

theorem expression_takes (operand : Takes env s p (operand (n + 1)) e q) (closed : env.source.charAt q = ')'.toNat) :
    Takes env s p (expression (n + 2)) e q := by
  rintro r rfl rfl
  obtain ⟨behind, read, same, rfl⟩ := operand r rfl rfl
  obtain ⟨found, looked, ran, _⟩ := operator_picks env (behind.skip env.source).2
  have alone : (behind.skip env.source).2 = behind := by
    apply Reader.skip_of_shown
    rw [show behind.peek env.source = _ from closed]
    decide
  have missing : found = none := by
    rw [alone] at ran
    exact operator_closed closed behind looked found rfl rfl ran
  have reads : ReadsSteps env (n + 1) behind [] behind _ := .done (missing ▸ ran)
  obtain ⟨atPos, atScope⟩ := reads.last_eq
  rcases reads.outcome r.checkpoint e with ⟨result, made, ran⟩ | ⟨⟨_, failed⟩, _⟩
  · cases made
    exact ⟨_, (expression_of_operand read).trans ran, atScope.trans same, atPos⟩
  · cases failed

theorem paren_takes (here : env.source.restAt p = byte '(' :: (text ++ byte ')' :: rest))
    (shown : Reader.isSkipped (env.source.charAt (p.right 1)) = false)
    (inside : Takes env s (p.right 1) (expression n) e (p.right (1 + text.length))) :
    Takes env s p (paren (n + 1)) e (p.right (text.length + 2)) := by
  have closes := restAt_right _ (restAt_right [byte '('] here)
  rw [List.length_singleton, Position.right_right] at closes
  refine .checkpoint <| .bind (.mark here (by decide)) <| .bind (.skip_shown shown) <| .bind (.orReject inside) <|
    .bind (.skip_shown (shown_of_restAt closes rfl)) <| .bind (.mark closes (by decide)) ?_
  rw [Position.right_right, Nat.add_comm 1, Nat.add_assoc]
  exact .pure e

/-- What follows at `q` is neither a part of the name before it nor a call or an index. -/
structure NameEnds (source : Source) (q : Position) : Prop where
  stops : continuesWord (source.charAt q) = false
  uncalled : source.charAt (source.skipped q) ≠ '('.toNat
  unindexed : source.charAt (source.skipped q) ≠ '['.toNat

section Variable

variable {written rest : Bytes} {v : Variable} (names : s.HasVariable written v)
  (here : env.source.restAt p = written ++ rest) (ends : NameEnds env.source (p.right written.length))

include names here ends

theorem wordAt_name : env.source.wordAt p = written := by
  have behind := restAt_right _ here
  have stops := Reader.head_of_continues (r := { pos := p.right written.length }) ends.stops
  rw [Source.wordAt, here]
  rw [behind] at stops
  exact Reader.leadingWord_append names.starts names.continues stops

theorem afterWord_name : env.source.afterWord p = p.right written.length := by
  rw [Source.afterWord, wordAt_name names here ends, Position.right]

theorem plainWord_name (usual : s.IsUsual) : PlainWord env.source p := by
  have word := wordAt_name names here ends
  have unreserved := usual.unreserved_word names.found
  refine ⟨Uses.startsWord_of_wordAt ?_, ?_, ?_, ?_⟩
  · rw [word]
    rintro rfl
    cases names.starts
  · rw [word]
    rintro rfl
    exact absurd unreserved (by decide)
  · rw [word]
    rintro rfl
    exact absurd unreserved (by decide)
  · rw [afterWord_name names here ends]
    intro opens
    have shown : Reader.isSkipped (env.source.charAt (p.right written.length)) = false := by
      rw [opens]
      decide
    apply ends.uncalled
    rw [skipped_of_shown shown, opens]

theorem namedVariable_takes :
    Takes env s p namedVariable (Build.var p (lower written) v.ty v.offset) (p.right written.length) := by
  have named : ¬ (lower written).isEmpty = true := by
    intro nothing
    have found := names.found
    rw [List.isEmpty_iff.mp nothing] at found
    change Stack.findFrom [] [] s.stack = some v at found
    rw [Stack.findFrom_nil] at found
    cases found
  refine .checkpoint <| .word ?_
  rw [wordAt_name names here ends, afterWord_name names here ends]
  dsimp only
  rw [if_neg named]
  refine .scope ?_
  rw [names.found]
  refine .checkpoint <| .bind .skip <| .peek ?_
  rw [if_neg ends.uncalled]
  exact .bind (.restore (Reader.skip_ahead { pos := p.right written.length }) rfl) (.pure _)

theorem arrayAccess_unread (n : Nat) : Unread env s p (arrayAccess n) := by
  cases n with
  | zero => exact .exhausted
  | succ n =>
    exact .checkpoint <| (Takes.orRestore (namedVariable_takes names here ends)).unread <| Takes.skip.unread <|
      .expect fun found => absurd found ends.unindexed

theorem value_takes (usual : s.IsUsual) (enough : 16 * env.source.remaining p + 1 < n) :
    Takes env s p (value n) (Build.var p (lower written) v.ty v.offset) (p.right written.length) := by
  obtain ⟨n, rfl⟩ := Nat.exists_eq_succ_of_ne_zero (Nat.ne_of_gt (Nat.lt_of_le_of_lt (Nat.zero_le _) enough))
  have word := plainWord_name names here ends usual
  have reads := expressionsSettle env n
  have lasts {which : Call} (low : ∀ brace, which.rank brace = 0) : ¬ which.exhaustsAt env n p := by
    intro ran
    have bound := Call.count_le_weight ran
    rw [Call.weight, low] at bound
    omega
  exact .orElse_refused (word.null.refuses null_settles id) <|
    .orElse_refused ((word.increment n).refuses reads.increment (lasts fun _ => rfl)) <|
    .orElse_refused ((word.cast n).refuses reads.cast (lasts fun _ => rfl)) <|
    .orElse_refused (word.sizeOf.refuses sizeOf_settles id) <|
    .orElse_refused ((word.call n).refuses reads.call (lasts fun _ => rfl)) <|
    .orElse_refused ((arrayAccess_unread names here ends n).refuses reads.arrayAccess (lasts fun _ => rfl)) <|
    .orElse (namedVariable_takes names here ends)

end Variable

end Rule

end Cb
