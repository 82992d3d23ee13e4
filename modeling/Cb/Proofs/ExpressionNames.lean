import Cb.Proofs.Layout
import Cb.Proofs.WordUse

/-! The rules for expressions move over words of the language and names in scope only. -/

namespace Cb

namespace Rule

variable {env : Env} {names : Names} {s : Scope} {p : Position}

theorem operator_spells : Spells env names s operator := by
  intro p
  have nothing {q : Position} (used : Uses env.source names p q) :
      Passes env s q (operator.none? ⟨p, s.sizes⟩) fun _ t q => t = s ∧ Uses env.source names p q := by
    rintro r after value rfl rfl ran
    cases ran
    rw [Reader.reject_pos used.ahead, Reader.reject_scope]
    exact ⟨Scope.truncate_sizes _, .done p⟩
  have found {q : Position} (op : Operator) (used : Uses env.source names p q) :
      Passes env s q (Pure.pure (some op)) fun _ t q => t = s ∧ Uses env.source names p q := .pure ⟨rfl, used⟩
  have start : Uses env.source names p p := .done p
  refine .checkpoint <| .chooseMark rfl start (fun _ => found _) <| .chooseMark rfl start (fun _ => found _) <|
    .chooseMark rfl start (fun _ => found _) <| .chooseMark rfl start (fun _ => found _) <| .chooseMark rfl start (fun _ =>
    found _) <| .chooseMark rfl start ?_ <| .chooseMark rfl start ?_ <| .chooseMark rfl start ?_ <| .chooseMark rfl start ?_ <|
    .chooseMark rfl start (fun _ => found _) <| .chooseMark rfl start (fun _ => found _) <| .chooseMark rfl start (fun _ =>
    found _) (nothing start)
  · intro q used
    exact .chooseMark rfl used (fun _ => found _) <| .chooseMark rfl used (fun _ => found _) (found _ used)
  · intro q used
    exact .chooseMark rfl used (fun _ => found _) <| .chooseMark rfl used (fun _ => found _) (found _ used)
  · intro q used
    exact .chooseMark rfl used (fun _ => found _) (found _ used)
  · intro q used
    exact .chooseMark rfl used (fun _ => found _) (nothing used)

theorem null_spells : Spells env names s null := .checkpoint fun _ => .bind (.keyword rfl) fun _ => .pure

theorem namedVariable_spells (shows : s.Shows names) : Spells env names s namedVariable := by
  intro p
  refine .checkpoint <| .word ?_
  dsimp only
  split
  · exact .reject
  · rename_i nonempty
    have isWord : env.source.wordAt p ≠ [] := ne_nil_of_lower nonempty
    refine .scope ?_
    split
    · exact .reject
    · rename_i v found
      have name : Uses env.source names p (env.source.afterWord p) := .named isWord (shows.isVariable _ v found) (.done _)
      have here : Uses env.source names (env.source.afterWord p) (env.source.afterWord p) := .done _
      refine .checkpoint <| .more here .skip fun _ q beyond => .more beyond .peek fun code q beyond => ?_
      split
      · exact .reject
      · exact .restore beyond.ahead rfl <| .pure ⟨rfl, name⟩

theorem sizeOf_spells (shows : s.Shows names) : Spells env names s sizeOf := by
  refine .checkpoint fun c => .bind (.keyword rfl) fun _ => .spaced rfl <| .bind .skip fun _ => .bind ?_ fun size =>
    .bind (.expect rfl) fun _ => .pure
  refine .orElse dataType_settles.map (.bind (.dataType shows) fun _ => .pure) fun p => ?_
  refine .scope <| .word ?_
  split
  · exact .reject
  · rename_i v found
    have isWord : env.source.wordAt p ≠ [] := by
      intro nothing
      have lowered : lower [] = [] := rfl
      rw [nothing, lowered, Scope.findVariable?, lowered, Stack.findFrom_nil] at found
      cases found
    have name : Uses env.source names p (env.source.afterWord p) := .named isWord (shows.isVariable _ v found) (.done _)
    exact .more name .skip fun _ q used => .pure ⟨rfl, used⟩

theorem character_passes (c : Checkpoint) : Passes env s (env.source.next p) (character c)
    fun _ t q => t = s ∧ q = env.source.afterCharacter p := by
  refine .advance ?_
  dsimp only
  split
  · rename_i escape
    refine .advance ?_
    split
    · refine .expect fun _ => .pure ⟨rfl, ?_⟩
      simp only [Source.afterCharacter, if_pos escape]
    · exact .rejected
  · rename_i plain
    refine .expect fun _ => .pure ⟨rfl, ?_⟩
    simp only [Source.afterCharacter, if_neg plain]

theorem isMark_of_isDigit (digit : isDigit code = true) : isMark code = true := by
  have quote : '\''.toNat = 39 := rfl
  simp only [isDigit, isMark, startsWord, isLetter, quote, Bool.and_eq_true, decide_eq_true_eq, Bool.not_eq_true',
    Bool.or_eq_false_iff, Bool.and_eq_false_iff, decide_eq_false_iff_not, beq_eq_false_iff_ne, bne_iff_ne] at digit ⊢
  omega

theorem digit_spells : Spells env names s digit? := by
  intro p
  refine .peek ?_
  split
  · rename_i digit
    exact .advance <| .pure ⟨rfl, .mark (isMark_of_isDigit digit) (.done _)⟩
  · exact .pure ⟨rfl, .done p⟩

theorem digits_spells (c : Checkpoint) (room : Nat) (number : Int) : Spells env names s (digits c room number) := by
  induction room generalizing number with
  | zero =>
    refine .bind digit_spells fun found => ?_
    cases found with
    | some digit => exact fun _ => .reject
    | none => exact .pure
  | succ room ih =>
    refine .bind digit_spells fun found => ?_
    cases found with
    | some digit => exact ih _
    | none => exact .pure

theorem literal_spells : Spells env names s literal := by
  intro p
  have start : Uses env.source names p p := .done p
  refine .checkpoint <| .more start (.test rfl) fun negative q used => .choose (fun quoted => ?_) <| .peek ?_
  · refine (character_passes _).bind fun code t q' read => ?_
    obtain ⟨rfl, rfl⟩ := read
    exact .pure ⟨rfl, used.trans (.character quoted (.done _))⟩
  · split
    · refine .more used (digits_spells _ _ _) fun magnitude q used => ?_
      generalize (if negative = true then -magnitude else magnitude) = number
      by_cases outside : (number < -32768 || 65535 < number) = true
      · simp only [outside]
        exact .reject
      · simp only [outside]
        exact .pure ⟨rfl, used⟩
    · exact .reject

structure ExpressionsSpell (env : Env) (names : Names) (s : Scope) (n : Nat) : Prop where
  expression : Spells env names s (expression n)
  operations : ∀ c pending values, Spells env names s (operations n c pending values)
  operand : Spells env names s (operand n)
  paren : Spells env names s (paren n)
  value : Spells env names s (value n)
  increment : Spells env names s (increment n)
  step : ∀ c down, Spells env names s (step n c down)
  cast : Spells env names s (cast n)
  call : Spells env names s (call n)
  arguments : ∀ c, Spells env names s (arguments n c)
  arrayAccess : Spells env names s (arrayAccess n)
  deref : Spells env names s (deref n)
  reference : Spells env names s (reference n)

namespace ExpressionsSpell

variable {n : Nat} (ih : ExpressionsSpell env names s n)

include ih

theorem operations_step (c : Checkpoint) (pending : List Pending) (values : List Expr) :
    Spells env names s (Rule.operations (n + 1) c pending values) := by
  intro p
  have start : Uses env.source names p p := .done p
  refine .checkpoint <| .more start .skip fun _ q used => .more used .position fun pos q used =>
    .more used operator_spells fun incoming q used => .more used .scaling fun scaling q used =>
    .more used .built fun both q used => ?_
  cases incoming with
  | some op =>
    refine .more used .skip fun _ q used => .more used (.orReject ih.operand) fun next q used => ?_
    exact (ih.operations _ _ _ q).imp fun _ t q' read => ⟨read.1, used.trans read.2⟩
  | none =>
    refine .restore used.ahead rfl ?_
    split
    · exact .pure ⟨rfl, start⟩
    · exact .fails

theorem increment_step : Spells env names s (Rule.increment (n + 1)) := by
  refine .checkpoint fun c => .bind (.testText (by decide)) fun up => ?_
  split
  · exact ih.step c false
  · refine .bind (.testText (by decide)) fun down => ?_
    split
    · exact ih.step c true
    · exact fun _ => .fails

theorem cast_step (shows : s.Shows names) : Spells env names s (Rule.cast (n + 1)) := by
  refine .checkpoint fun c => .bind (.expect rfl) fun _ => .bind .skip fun _ =>
    .bind (.orRestore (.dataType shows)) fun target => .bind (.expect rfl) fun _ => .bind .skip fun _ =>
    .bind (.orReject ?_) fun inner => .bind .built fun e => ?_
  · refine .bind .peek fun code => ?_
    split
    · exact ih.paren
    · exact ih.value
  · split
    · exact .bind .warn fun _ => .pure
    · exact .pure

theorem call_step (shows : s.Shows names) : Spells env names s (Rule.call (n + 1)) := by
  intro p
  refine .checkpoint <| .word ?_
  dsimp only
  split
  · exact .reject
  · rename_i nonempty
    have isWord : env.source.wordAt p ≠ [] := ne_nil_of_lower nonempty
    refine .expect fun opens => ?_
    have start : Uses env.source names (env.source.afterWord p) (env.source.next (env.source.afterWord p)) :=
      .mark (by rw [opens]; decide) (.done _)
    refine .more start .skip fun _ q used => .chooseThen rfl used .pure (ih.arguments _) fun arguments q used => ?_
    refine .scope ?_
    split
    · exact .reject
    · rename_i callee found
      exact .built fun _ => ⟨rfl, .called isWord opens (shows.isFunction _ callee found) used⟩

theorem arguments_step (c : Checkpoint) : Spells env names s (Rule.arguments (n + 1) c) := by
  refine .bind .skip fun _ => .bind (.orReject ih.expression) fun e => .bind .skip fun _ => .choose rfl ?_ ?_
  · exact .bind (ih.arguments c) fun _ => .pure
  · exact .bind (.expect rfl) fun _ => .pure

theorem deref_step (shows : s.Shows names) : Spells env names s (Rule.deref (n + 1)) := by
  refine .checkpoint fun c => .bind (.expect rfl) fun _ => .bind .skip fun _ => .bind (.orReject (.bind .peek fun code =>
    ?_)) fun _ => .built
  split
  · exact ih.paren
  · split
    · exact ih.deref
    · exact namedVariable_spells shows

theorem reference_step (shows : s.Shows names) : Spells env names s (Rule.reference (n + 1)) := by
  refine .checkpoint fun c => .bind (.expect rfl) fun _ => .bind .skip fun _ => .bind (.orReject (.bind .peek fun code =>
    ?_)) fun _ => .built
  split
  · exact ih.deref
  · exact .orElse (expressionsSettle env n).arrayAccess ih.arrayAccess (namedVariable_spells shows)

theorem operand_step : Spells env names s (Rule.operand (n + 1)) := by
  refine .orElse (expressionsSettle env n).cast ih.cast <| .bind .peek fun code => ?_
  split
  · exact ih.paren
  · exact ih.value

theorem value_step (shows : s.Shows names) : Spells env names s (Rule.value (n + 1)) := by
  have settles := expressionsSettle env n
  refine .orElse null_settles null_spells <| .orElse settles.increment ih.increment <|
    .orElse settles.cast ih.cast <| .orElse sizeOf_settles (sizeOf_spells shows) <| .orElse settles.call ih.call <|
    .orElse settles.arrayAccess ih.arrayAccess <| .orElse namedVariable_settles (namedVariable_spells shows) <|
    .orElse literal_settles literal_spells <| .orElse settles.deref ih.deref <|
    .orElse settles.reference ih.reference ?_
  intro p r after value _ _ ran
  cases ran

theorem succ (shows : s.Shows names) : ExpressionsSpell env names s (n + 1) where
  expression := .checkpoint fun _ => .bind (.orReject ih.operand) fun _ => ih.operations _ _ _
  operations := ih.operations_step
  operand := ih.operand_step
  paren := .checkpoint fun _ => .bind (.expect rfl) fun _ => .bind .skip fun _ => .bind (.orReject ih.expression) fun _ =>
    .spaced rfl .pure
  value := ih.value_step shows
  increment := ih.increment_step
  step _ _ := .bind .skip fun _ => .bind (.orReject ih.value) fun _ => .built
  cast := ih.cast_step shows
  call := ih.call_step shows
  arguments := ih.arguments_step
  arrayAccess := .checkpoint fun _ => .bind (.orRestore (namedVariable_spells shows)) fun _ => .spaced rfl <|
    .bind .skip fun _ => .bind (.orReject ih.expression) fun _ => .spaced rfl <| .bind .scaling fun _ => .built
  deref := ih.deref_step shows
  reference := ih.reference_step shows

end ExpressionsSpell

theorem expressionsSpell (shows : s.Shows names) (n : Nat) : ExpressionsSpell env names s n := by
  induction n with
  | zero => constructor <;> intros <;> exact fun _ => .exhausted
  | succ n ih => exact ih.succ shows

end Rule

end Cb
