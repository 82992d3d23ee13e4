import Cb.Proofs.ExpressionRules

/-! Texts whose words are words of the language or names in scope, and rules that move over such texts. -/

namespace Cb

structure Names where
  isVariable : Bytes → Prop
  isFunction : Bytes → Prop

def fixedWords : List Bytes :=
  ["if", "else", "for", "while", "return", "break", "continue", "sizeof", "null", "__asm"].map utf8

namespace Source

def charAt (source : Source) (pos : Position) : Nat := Reader.peek source { pos }

def next (source : Source) (pos : Position) : Position := (Reader.advance source { pos }).pos

def restAt (source : Source) (pos : Position) : Bytes := (source.lines[pos.line]?.getD []).drop pos.column

def wordAt (source : Source) (pos : Position) : Bytes := Reader.leadingWord (source.restAt pos)

def afterWord (source : Source) (pos : Position) : Position := ⟨pos.line, pos.column + (source.wordAt pos).length⟩

def afterCharacter (source : Source) (pos : Position) : Position :=
  let inside := source.next pos
  let last := if source.charAt inside = '\\'.toNat then source.next inside else inside
  source.next (source.next last)

end Source

def isMark (code : Nat) : Bool := !startsWord code && code != '\''.toNat

inductive Uses (source : Source) (names : Names) : Position → Position → Prop
  | done (p : Position) : Uses source names p p
  | mark {p q : Position} (isMark : isMark (source.charAt p) = true) (rest : Uses source names (source.next p) q) :
      Uses source names p q
  | character {p q : Position} (quoted : source.charAt p = '\''.toNat)
      (rest : Uses source names (source.afterCharacter p) q) : Uses source names p q
  | reserved {p q : Position} (isReserved : isReserved (source.wordAt p) = true)
      (rest : Uses source names (source.afterWord p) q) : Uses source names p q
  | named {p q : Position} (isWord : source.wordAt p ≠ []) (known : names.isVariable (lower (source.wordAt p)))
      (rest : Uses source names (source.afterWord p) q) : Uses source names p q
  | called {p q : Position} (isWord : source.wordAt p ≠ []) (opens : source.charAt (source.afterWord p) = '('.toNat)
      (known : names.isFunction (lower (source.wordAt p))) (rest : Uses source names (source.afterWord p) q) :
      Uses source names p q

namespace Reader

variable {source : Source}

theorem advance_pos (r : Reader) : (r.advance source).pos = source.next r.pos := by
  have same : Reader.peek source { pos := r.pos } = r.peek source := rfl
  simp only [Source.next, advance, same]
  split
  · rfl
  · split <;> rfl

variable {r : Reader} {text : Bytes}

theorem peek_of_restAt :
    (source.restAt r.pos = [] → r.peek source = endOfFile ∨ r.peek source = endOfLine) ∧
      ∀ b rest, source.restAt r.pos = b :: rest → r.peek source = b.toNat := by
  cases line : source.lines[r.pos.line]? with
  | none => simp [Source.restAt, peek, line]
  | some text =>
    simp only [Source.restAt, line, Option.getD_some, peek]
    constructor
    · intro nothing
      right
      rw [List.getElem?_eq_none (List.drop_eq_nil_iff.mp nothing)]
    · intro b rest found
      have first : text[r.pos.column]? = some b := by
        rw [← List.head?_drop, found]
        rfl
      rw [first]

theorem advance_of_continues (continues : continuesWord b.toNat = true) (found : r.peek source = b.toNat) :
    source.restAt r.pos = b :: source.restAt ⟨r.pos.line, r.pos.column + 1⟩ ∧
      (r.advance source).pos = ⟨r.pos.line, r.pos.column + 1⟩ := by
  have notFile : r.peek source ≠ endOfFile := by
    intro ended
    rw [← found, ended] at continues
    exact absurd continues (by decide)
  have notLine : r.peek source ≠ endOfLine := by
    intro ended
    rw [← found, ended] at continues
    exact absurd continues (by decide)
  constructor
  · cases here : source.restAt r.pos with
    | nil => exact absurd (peek_of_restAt.1 here) (by simp [notFile, notLine])
    | cons first rest =>
      have same : first = b := UInt8.toNat_inj.mp ((peek_of_restAt.2 first rest here).symm.trans found)
      have tail : source.restAt ⟨r.pos.line, r.pos.column + 1⟩ = (source.restAt r.pos).tail := List.tail_drop.symm
      rw [tail, here, same, List.tail_cons]
  · rw [advance, if_neg notFile, if_neg notLine]
    rfl

theorem expectCodes_word (continues : ∀ b ∈ text, continuesWord b.toNat = true)
    (ran : expectCodes source c (text.map UInt8.toNat) r = (true, after)) :
    source.restAt r.pos = text ++ source.restAt after.pos ∧ after.scope = r.scope ∧
      after.pos = ⟨r.pos.line, r.pos.column + text.length⟩ := by
  induction text generalizing r with
  | nil =>
    cases ran
    exact ⟨rfl, rfl, rfl⟩
  | cons b text ih =>
    by_cases found : r.peek source = b.toNat
    · simp only [List.map_cons, expectCodes, expect, if_pos found] at ran
      obtain ⟨starts, moved⟩ := advance_of_continues (continues b List.mem_cons_self) found
      obtain ⟨others, kept, position⟩ := ih (fun other member => continues other (List.mem_cons_of_mem _ member)) ran
      rw [moved] at others position
      refine ⟨?_, kept.trans (advance_scope source r), ?_⟩
      · rw [starts, others, List.cons_append]
      · rw [position, List.length_cons, Nat.add_assoc, Nat.add_comm 1]
    · simp only [List.map_cons, expectCodes, expect, if_neg found] at ran
      cases ran

def IsKeyword (text : Bytes) : Prop :=
  isReserved text = true ∧ text.head?.any (startsWord ·.toNat) = true ∧ (∀ b ∈ text, continuesWord b.toNat = true) ∧
    codePoints text = text.map UInt8.toNat

instance (text : Bytes) : Decidable (IsKeyword text) := inferInstanceAs (Decidable (_ ∧ _))

def keywords : List Bytes :=
  ["if", "else", "for", "while", "return", "break", "continue", "sizeof", "NULL", "__asm"].map utf8

theorem isKeyword_of_listed (listed : keywords.contains text = true) :
    IsKeyword text ∧ IsSpelled text ∧ fixedWords.contains (lower text) = true := by
  have all : ∀ word ∈ keywords, IsKeyword word ∧ IsSpelled word ∧ fixedWords.contains (lower word) = true := by
    decide +kernel
  exact all text (List.contains_iff_mem.mp listed)

theorem leadingWord_append (starts : text.head?.any (startsWord ·.toNat) = true)
    (continues : ∀ b ∈ text, continuesWord b.toNat = true) (stops : rest.head?.any (continuesWord ·.toNat) = false) :
    leadingWord (text ++ rest) = text := by
  have ended : rest.takeWhile (continuesWord ·.toNat) = [] := by
    cases rest with
    | nil => rfl
    | cons b rest => exact List.takeWhile_cons_of_neg (by simpa using stops)
  cases text with
  | nil => cases starts
  | cons first text =>
    have first : startsWord first.toNat = true := starts
    rw [List.cons_append, leadingWord, if_pos first, ← List.cons_append, List.takeWhile_append_of_pos continues, ended,
      List.append_nil]

theorem head_of_continues (stops : continuesWord (r.peek source) = false) :
    (source.restAt r.pos).head?.any (continuesWord ·.toNat) = false := by
  cases here : source.restAt r.pos with
  | nil => rfl
  | cons b rest =>
    rw [peek_of_restAt.2 b rest here] at stops
    exact stops

theorem expectText_keyword (isKeyword : IsKeyword text) (ran : expectText source text c r = (true, after))
    (stops : continuesWord (after.peek source) = false) :
    source.wordAt r.pos = text ∧ after.scope = r.scope ∧ after.pos = source.afterWord r.pos := by
  obtain ⟨_, starts, continues, codes⟩ := isKeyword
  rw [expectText, codes] at ran
  obtain ⟨written, kept, position⟩ := expectCodes_word continues ran
  have word : source.wordAt r.pos = text := by
    rw [Source.wordAt, written]
    exact leadingWord_append starts continues (head_of_continues stops)
  exact ⟨word, kept, by rw [position, Source.afterWord, word]⟩

end Reader

namespace Uses

variable {source : Source} {names : Names} {p q t : Position}

theorem trans (first : Uses source names p q) (second : Uses source names q t) : Uses source names p t := by
  induction first with
  | done => exact second
  | mark isMark _ ih => exact .mark isMark (ih second)
  | character quoted _ ih => exact .character quoted (ih second)
  | reserved isReserved _ ih => exact .reserved isReserved (ih second)
  | named isWord known _ ih => exact .named isWord known (ih second)
  | called isWord opens known _ ih => exact .called isWord opens known (ih second)

theorem ahead (uses : Uses source names p q) : source.Ahead p q := by
  have next (p : Position) : source.Ahead p (source.next p) := Reader.advance_ahead { pos := p }
  have word (p : Position) : source.Ahead p (source.afterWord p) := Reader.word_ahead { pos := p }
  induction uses with
  | done p => exact .refl p
  | mark _ _ ih => exact (next _).trans ih
  | @character p q _ _ ih =>
    refine Source.Ahead.trans ?_ ih
    have last : source.Ahead p
        (if source.charAt (source.next p) = '\\'.toNat then source.next (source.next p) else source.next p) := by
      split
      · exact (next _).trans (next _)
      · exact next _
    exact last.trans ((next _).trans (next _))
  | reserved _ _ ih => exact (word _).trans ih
  | named _ _ _ ih => exact (word _).trans ih
  | called _ _ _ _ ih => exact (word _).trans ih

theorem startsWord_of_wordAt (isWord : source.wordAt p ≠ []) : startsWord (source.charAt p) = true := by
  rw [Source.wordAt] at isWord
  cases here : source.restAt p with
  | nil => exact absurd (by rw [here]; rfl) isWord
  | cons first rest =>
    have first : source.charAt p = first.toNat := Reader.peek_of_restAt.2 first rest here
    rw [here, Reader.leadingWord] at isWord
    split at isWord
    · rwa [first]
    · exact absurd rfl isWord

theorem eq_of_unknown (uses : Uses source names p q) (isWord : source.wordAt p ≠ [])
    (unreserved : isReserved (source.wordAt p) = false) (noVariable : ¬ names.isVariable (lower (source.wordAt p)))
    (noFunction : ¬ names.isFunction (lower (source.wordAt p))) : q = p := by
  have starts := startsWord_of_wordAt isWord
  cases uses with
  | done => rfl
  | mark mark _ =>
    rw [isMark, starts] at mark
    cases mark
  | character quoted _ =>
    rw [quoted] at starts
    exact absurd starts (by decide)
  | reserved reserved _ =>
    rw [unreserved] at reserved
    cases reserved
  | named _ known _ => exact absurd known noVariable
  | called _ _ known _ => exact absurd known noFunction

theorem of_mark {r : Reader} (isMark : isMark (r.peek source) = true) :
    Uses source names r.pos (r.advance source).pos := by
  rw [Reader.advance_pos]
  exact .mark isMark (.done _)

theorem of_skip (limit : Nat) (r : Reader) : Uses source names r.pos (Reader.skipUpTo source limit r).2.pos := by
  induction limit generalizing r with
  | zero => exact .done _
  | succ limit ih =>
    simp only [Reader.skipUpTo]
    split
    · rename_i blank
      refine (of_mark ?_).trans (ih _)
      simp only [Reader.isSkipped, Bool.or_eq_true, beq_iff_eq] at blank
      rcases blank with ((blank | blank) | blank) | blank <;> rw [blank] <;> decide
    · exact .done _

theorem of_test (isMark : Cb.isMark code = true) (r : Reader) :
    Uses source names r.pos (r.test source code).2.pos := by
  simp only [Reader.test]
  split
  · rename_i found
    exact of_mark (found ▸ isMark)
  · exact .done _

theorem of_testCodes (marks : ∀ code ∈ codes, Cb.isMark code = true) (r : Reader) :
    Uses source names r.pos (Reader.testCodes source codes r).2.pos := by
  induction codes generalizing r with
  | nil => exact .done _
  | cons code rest ih =>
    have first : Uses source names r.pos (r.test source code).2.pos := of_test (marks code List.mem_cons_self) r
    simp only [Reader.testCodes]
    split
    · rename_i moved
      rw [moved] at first
      exact first.trans (ih (fun other member => marks other (List.mem_cons_of_mem _ member)) _)
    · rename_i stayed
      rwa [stayed] at first

end Uses

structure Scope.Shows (s : Scope) (names : Names) : Prop where
  types : s.types = Ty.builtins
  isVariable : ∀ word v, s.findVariable? (lower word) = some v → names.isVariable (lower word)
  isFunction : ∀ word f, s.findFunction? (lower word) = some f → names.isFunction (lower word)

theorem ne_nil_of_lower (nonempty : ¬ (lower word).isEmpty = true) : word ≠ [] := by
  intro nothing
  rw [nothing] at nonempty
  exact nonempty rfl

namespace Rule

variable {α β : Type} {env : Env} {names : Names} {s : Scope} {p start : Position}

def Passes (env : Env) (s : Scope) (p : Position) (rule : Rule α) (text : α → Scope → Position → Prop) : Prop :=
  ∀ (r after : Reader) (value : α), r.scope = s → r.pos = p → rule env r = .ok value after →
    text value after.scope after.pos

def Spells (env : Env) (names : Names) (s : Scope) (rule : Rule α) : Prop :=
  ∀ p, Passes env s p rule fun _ t q => t = s ∧ Uses env.source names p q

namespace Passes

variable {text : α → Scope → Position → Prop}

theorem pure {value : α} (holds : text value s p) : Passes env s p (Pure.pure value : Rule α) text := by
  rintro r after result rfl rfl ran
  cases ran
  exact holds

variable {c : Checkpoint} {rule : Rule α} {next : β → Rule α} {reason : Reason} {character : Char}

theorem bind {rule : Rule β} {middle : β → Scope → Position → Prop} (first : Passes env s p rule middle)
    (second : ∀ value t q, middle value t q → Passes env t q (next value) text) :
    Passes env s p (rule >>= next) text := by
  intro r after result here at_p ran
  obtain ⟨value, between, read, ran⟩ := bind_ok ran
  exact second value _ _ (first r between value here at_p read) between after result rfl rfl ran

theorem imp (passes : Passes env s p rule text) (implies : ∀ value t q, text value t q → weaker value t q) :
    Passes env s p rule weaker :=
  fun r after value here at_p ran => implies value _ _ (passes r after value here at_p ran)

theorem exhausted : Passes env s p (Rule.exhausted : Rule α) text := by
  intro r after value _ _ ran
  cases ran

theorem reject : Passes env s p (Rule.reject c reason : Rule α) text := by
  intro r after value _ _ ran
  cases ran

theorem rejected : Passes env s p (Rule.reject c reason >>= next) text := by
  intro r after value _ _ ran
  cases ran

theorem fails : Passes env s p (Rule.fails c : Rule α) text := by
  intro r after value _ _ ran
  cases ran

theorem built (holds : ∀ value, text value s p) :
    Passes env s p (Rule.built tree c) text := by
  cases tree with
  | ok value => exact pure (holds value)
  | error error => exact reject

theorem checkpoint {next : Checkpoint → Rule α} (passes : Passes env s p (next ⟨p, s.sizes⟩) text) :
    Passes env s p (checkpoint >>= next) text := by
  rintro r after value rfl rfl ran
  exact passes r after value rfl rfl ran

theorem scope {next : Scope → Rule α} (passes : Passes env s p (next s) text) :
    Passes env s p (scope >>= next) text := by
  rintro r after value rfl rfl ran
  exact passes r after value rfl rfl ran

theorem peek {next : Nat → Rule α} (passes : Passes env s p (next (env.source.charAt p)) text) :
    Passes env s p (peek >>= next) text := by
  rintro r after value rfl rfl ran
  exact passes r after value rfl rfl ran

theorem word {next : Bytes → Rule α}
    (passes : Passes env s (env.source.afterWord p) (next (env.source.wordAt p)) text) :
    Passes env s p (word >>= next) text := by
  rintro r after value rfl rfl ran
  exact passes { r with pos := env.source.afterWord r.pos } after value rfl rfl ran

theorem advance {next : Nat → Rule α}
    (passes : Passes env s (env.source.next p) (next (env.source.charAt p)) text) :
    Passes env s p (advance >>= next) text := by
  rintro r after value rfl rfl ran
  exact passes (r.advance env.source) after value (Reader.advance_scope _ r) (Reader.advance_pos r) ran

theorem choose (found : env.source.charAt p = character.toNat → Passes env s (env.source.next p) yes text)
    (missing : Passes env s p no text) :
    Passes env s p (test character >>= fun next => if next = true then yes else no) text := by
  rintro r after value rfl rfl ran
  rw [choose_apply] at ran
  split at ran
  · rename_i next
    exact found next _ after value (Reader.advance_scope _ r) (Reader.advance_pos r) ran
  · exact missing r after value rfl rfl ran

theorem expect {next : Unit → Rule α}
    (found : env.source.charAt p = character.toNat → Passes env s (env.source.next p) (next ()) text) :
    Passes env s p (expect character c >>= next) text := by
  rintro r after value rfl rfl ran
  obtain ⟨_, between, read, ran⟩ := bind_ok ran
  obtain ⟨next, rfl⟩ := expect_ok read
  exact found next _ after value (Reader.advance_scope _ r) (Reader.advance_pos r) ran

theorem restore {next : Unit → Rule α} (ahead : env.source.Ahead c.pos p) (own : c.sizes = s.sizes)
    (passes : Passes env s c.pos (next ()) text) : Passes env s p (restore c >>= next) text := by
  rintro r after value rfl rfl ran
  refine passes (r.restore c) after value ?_ (Reader.restore_pos ahead) ran
  change r.scope.truncate c.sizes = r.scope
  rw [own, Scope.truncate_sizes]

theorem orReject (passes : Passes env s p rule text) : Passes env s p (orReject rule c reason) text :=
  fun r after value here at_p ran => passes r after value here at_p (orReject_ok ran)

theorem orRestore (passes : Passes env s p rule text) : Passes env s p (orRestore rule c) text := by
  intro r after value here at_p ran
  simp only [Rule.orRestore] at ran
  split at ran
  · cases ran
  · exact passes r after value here at_p ran

theorem orElse (settles : Settles env grows spent rule) (first : Passes env s p rule text)
    (second : Passes env s p other text) :
    Passes env s p (orElse rule other) text := by
  intro r after value here at_p ran
  have outcome := settles r
  cases read : rule env r with
  | ok found reached =>
    simp only [Rule.orElse, read] at ran
    cases ran
    exact first r after value here at_p read
  | fail reached =>
    rw [read] at outcome
    simp only [Rule.orElse, read] at ran
    exact second reached after value (outcome.2.trans here) (outcome.1.trans at_p) ran
  | exhausted =>
    simp only [Rule.orElse, read] at ran
    cases ran

theorem and (first : Passes env s p rule text) (second : Passes env s p rule other) :
    Passes env s p rule fun value t q => text value t q ∧ other value t q :=
  fun r after value here at_p ran => ⟨first r after value here at_p ran, second r after value here at_p ran⟩

theorem of_settles (settles : Settles env grows spent rule) :
    Passes env s p rule fun value t _ => grows value s t :=
  fun _ _ _ here _ ran => here ▸ settles.of_ok ran

theorem of_follows (follows : Follows env c grows spent rule) :
    Passes env s p rule fun value t _ => grows value s t :=
  fun _ _ _ here _ ran => here ▸ follows.of_ok ran

theorem ignore {rule : Rule β} (passes : ∀ value t q, Passes env t q (next value) text) :
    Passes env s p (rule >>= next) text := by
  intro r after result _ _ ran
  obtain ⟨value, between, _, ran⟩ := bind_ok ran
  exact passes value _ _ between after result rfl rfl ran

theorem update {next : Unit → Rule α}
    (changes : ∀ r : Reader, r.scope = s → (change r).pos = r.pos ∧ (change r).scope = t)
    (passes : Passes env t p (next ()) text) : Passes env s p (update change >>= next) text := by
  rintro r after value here rfl ran
  obtain ⟨stays, scope⟩ := changes r here
  exact passes (change r) after value scope stays ran

theorem optional {rule : Rule β} {next : Option β → Rule α} {grows : β → Scope → Scope → Prop}
    {middle : β → Scope → Position → Prop} (settles : Settles env grows spent rule) (first : Passes env s p rule middle)
    (found : ∀ value t q, middle value t q → Passes env t q (next (some value)) text)
    (missing : Passes env s p (next none) text) : Passes env s p (optional rule >>= next) text := by
  intro r after result here at_p ran
  have outcome := settles r
  cases read : rule env r with
  | ok value reached =>
    simp only [bind_apply, Rule.optional, read] at ran
    exact found value _ _ (first r reached value here at_p read) reached after result rfl rfl ran
  | fail reached =>
    rw [read] at outcome
    simp only [bind_apply, Rule.optional, read] at ran
    exact missing reached after result (outcome.2.trans here) (outcome.1.trans at_p) ran
  | exhausted =>
    simp only [bind_apply, Rule.optional, read] at ran
    cases ran

theorem more {rule : Rule β} (used : Uses env.source names start p) (spells : Spells env names s rule)
    (passes : ∀ value q, Uses env.source names start q → Passes env s q (next value) text) :
    Passes env s p (rule >>= next) text := by
  refine (spells p).bind fun value t q read => ?_
  obtain ⟨rfl, further⟩ := read
  exact passes value q (used.trans further)

theorem chooseMark (isMark : isMark character.toNat = true) (used : Uses env.source names start p)
    (found : ∀ q, Uses env.source names start q → Passes env s q yes text) (missing : Passes env s p no text) :
    Passes env s p (test character >>= fun next => if next = true then yes else no) text :=
  .choose (fun here => found _ (used.trans (.mark (here ▸ isMark) (.done _)))) missing

theorem chooseThen {yes no : Rule β} (isMark : isMark character.toNat = true) (used : Uses env.source names start p)
    (found : Spells env names s yes) (missing : Spells env names s no)
    (passes : ∀ value q, Uses env.source names start q → Passes env s q (next value) text) :
    Passes env s p (test character >>= fun there => if there = true then yes >>= next else no >>= next) text :=
  .chooseMark isMark used (fun _ further => .more further found passes) (.more used missing passes)

end Passes

namespace Spells

theorem pure {value : α} : Spells env names s (Pure.pure value : Rule α) := fun p => .pure ⟨rfl, .done p⟩

theorem bind {rule : Rule β} {next : β → Rule α} (first : Spells env names s rule)
    (second : ∀ value, Spells env names s (next value)) : Spells env names s (rule >>= next) := by
  intro p
  refine .more (.done p) first fun value q used => (second value q).imp fun _ t q' read => ?_
  exact ⟨read.1, used.trans read.2⟩

theorem checkpoint (spells : ∀ c, Spells env names s (next c)) :
    Spells env names s (checkpoint >>= next) := fun p => .checkpoint (spells _ p)

theorem scope (spells : Spells env names s (next s)) :
    Spells env names s (scope >>= next) := fun p => .scope (spells p)

variable {rule : Rule α} {c : Checkpoint} {character : Char}

theorem built : Spells env names s (built tree c) :=
  fun p => .built fun _ => ⟨rfl, .done p⟩

theorem still (stays : ∀ (r after : Reader) (value : α), rule env r = .ok value after →
    after.pos = r.pos ∧ after.scope = r.scope) : Spells env names s rule := by
  rintro p r after value rfl rfl ran
  obtain ⟨samePos, sameScope⟩ := stays r after value ran
  rw [samePos]
  exact ⟨sameScope, .done _⟩

theorem tells {answer : Reader → α} (replies : ∀ r, rule env r = .ok (answer r) r) : Spells env names s rule := by
  refine still fun r after value ran => ?_
  rw [replies r] at ran
  cases ran
  exact ⟨rfl, rfl⟩

theorem peek : Spells env names s peek := tells fun _ => rfl

theorem position : Spells env names s position := tells fun _ => rfl

theorem scaling : Spells env names s scaling := tells fun _ => rfl

theorem sourceSize : Spells env names s sourceSize := tells fun _ => rfl

theorem isOn : Spells env names s (isOn feature) := tells fun _ => rfl

theorem warn :
    Spells env names s (warn warning pos message) := by
  refine still fun r after _ ran => ?_
  simp only [Rule.warn] at ran
  split at ran
  · cases ran
    exact ⟨Reader.remark_pos r _, Reader.remark_scope r _⟩
  · cases ran
    exact ⟨rfl, rfl⟩

theorem skip : Spells env names s skip := by
  rintro p r after _ rfl rfl ran
  cases ran
  exact ⟨Reader.skipUpTo_scope _ _ r, .of_skip _ r⟩

theorem test (isMark : isMark character.toNat = true) : Spells env names s (test character) := by
  rintro p r after _ rfl rfl ran
  cases ran
  exact ⟨Reader.test_scope _ _ r, .of_test isMark r⟩

theorem testText (marks : ∀ code ∈ codePoints text, isMark code = true) :
    Spells env names s (testText text) := by
  rintro p r after _ rfl rfl ran
  cases ran
  refine ⟨Reader.testText_scope _ _ r, ?_⟩
  by_cases found : (Reader.testText env.source text r).1 = true
  · have moved : Uses env.source names r.pos _ := .of_testCodes marks r
    simp only [Reader.testText] at found ⊢
    split
    · rename_i reached
      rwa [reached] at moved
    · rename_i stayed
      simp [stayed] at found
  · have back := Reader.testText_pos (Bool.eq_false_iff.mpr found)
    change Uses env.source names r.pos (Reader.testText env.source text r).2.pos
    rw [back]
    exact .done _

theorem expect (isMark : isMark character.toNat = true) :
    Spells env names s (expect character c) := by
  intro p r after value here at_p ran
  have passes : Passes env s p (Rule.expect character c >>= fun _ => Pure.pure ())
      fun _ t q => t = s ∧ Uses env.source names p q :=
    .expect fun found => .pure ⟨rfl, .mark (found ▸ isMark) (.done _)⟩
  refine passes r after value here at_p ?_
  simp only [bind_apply, ran]
  rfl

theorem spaced (isMark : isMark character.toNat = true) (second : Spells env names s (next ())) :
    Spells env names s (Rule.skip >>= fun _ => Rule.expect character c >>= next) :=
  bind skip fun _ => bind (expect isMark) fun _ => second

theorem choose (isMark : isMark character.toNat = true) (found : Spells env names s yes)
    (missing : Spells env names s no) :
    Spells env names s (Rule.test character >>= fun next => if next = true then yes else no) := by
  refine bind (test isMark) fun next => ?_
  split
  · exact found
  · exact missing

theorem orReject (spells : Spells env names s rule) :
    Spells env names s (orReject rule c reason) := fun p => .orReject (spells p)

theorem orRestore (spells : Spells env names s rule) :
    Spells env names s (orRestore rule c) := fun p => .orRestore (spells p)

theorem orElse (settles : Settles env grows spent rule) (first : Spells env names s rule)
    (second : Spells env names s other) :
    Spells env names s (orElse rule other) := fun p => .orElse settles (first p) (second p)

theorem keyword (listed : Reader.keywords.contains text = true) : Spells env names s (keyword text c) := by
  rintro p r after _ rfl rfl ran
  have isKeyword := (Reader.isKeyword_of_listed listed).1
  rw [keyword_eq] at ran
  split at ran
  · rename_i reached read
    split at ran
    · cases ran
    · rename_i stops
      cases ran
      obtain ⟨word, kept, position⟩ := Reader.expectText_keyword isKeyword read (Bool.eq_false_iff.mpr stops)
      rw [position]
      exact ⟨kept, .reserved (word.symm ▸ isKeyword.1) (.done _)⟩
  · cases ran

theorem stars (limit : Nat) : Spells env names s (stars limit) := by
  induction limit with
  | zero => exact fun _ => .exhausted
  | succ limit ih =>
    refine choose rfl ?_ pure
    exact bind skip fun _ => bind ih fun _ => pure

theorem dataType (shows : s.Shows names) : Spells env names s dataType := by
  intro p
  refine .checkpoint <| .word ?_
  split
  · exact .reject
  · refine .scope ?_
    split
    · exact .reject
    · rename_i ty found
      have listed : ty ∈ Ty.builtins := shows.types ▸ List.mem_of_find?_eq_some found
      have spelled : ty.base.name = lower (env.source.wordAt p) := by simpa using List.find?_some found
      have reserved : isReserved (env.source.wordAt p) = true := by
        rw [isReserved, ← spelled]
        simp only [Ty.builtins, List.mem_cons, List.not_mem_nil, or_false] at listed
        rcases listed with rfl | rfl | rfl <;> decide
      have name : Uses env.source names p (env.source.afterWord p) := .reserved reserved (.done _)
      refine .more name skip fun _ q used => .more used sourceSize fun size q used => ?_
      exact .more used (stars _) fun _ q used => .pure ⟨rfl, used⟩

end Spells

theorem Passes.spaced {character : Char} {text : α → Scope → Position → Prop} (isMark : isMark character.toNat = true)
    (used : Uses env.source names start p)
    (passes : ∀ q, Uses env.source names start q → Passes env s q (next ()) text) :
    Passes env s p (skip >>= fun _ => Rule.expect character c >>= next) text :=
  .more used .skip fun _ _ used => .more used (.expect isMark) fun _ => passes

theorem Passes.whetherSpelled {word : Bytes} {text : α → Scope → Position → Prop}
    (listed : Reader.keywords.contains word = true) (used : Uses env.source names c.pos p) (own : c.sizes = s.sizes)
    (found : ∀ q, Uses env.source names c.pos q → Passes env s q (next (some ())) text)
    (missing : Passes env s c.pos (next none) text) :
    Passes env s p (Rule.optional (keyword word c) >>= next) text := by
  rintro r after value rfl rfl ran
  rcases keyword_cases c env r (Reader.isKeyword_of_listed listed).2.1 with ⟨reached, read, _, _⟩ | ⟨middle, read, kept, ahead⟩
  · simp only [bind_apply, Rule.optional, read] at ran
    obtain ⟨kept, spelled⟩ := Spells.keyword listed r.pos r reached () rfl rfl read
    exact found reached.pos (used.trans spelled) reached after value kept rfl ran
  · simp only [bind_apply, Rule.optional, read] at ran
    refine missing (middle.restore c) after value ?_ (Reader.restore_pos (used.ahead.trans ahead)) ran
    change middle.scope.truncate c.sizes = r.scope
    rw [kept, own, Scope.truncate_sizes]

end Rule

end Cb
