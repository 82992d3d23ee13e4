import Cb.Proofs.LowerCase
import Cb.Proofs.WordUse

/-! Sources that differ in the case of names, or in the blanks between tokens. Two texts are gone through side by
side. What was read before decides what a sign belongs to: behind an operand it is an operator of its own, and
elsewhere it joins a second sign or the number behind it. -/

namespace Cb

inductive Last where
  /-- An operand, a statement or a function may begin here. -/
  | start
  | operand
  | typed
  | declared
  | measure
  | control
  | sign
deriving DecidableEq

inductive Bracket where
  | group
  | size
  | head
deriving DecidableEq

structure Mood where
  last : Last := .start
  brackets : List Bracket := []
deriving DecidableEq

namespace Last

def bracket : Last → Bracket
  | .measure => .size
  | .control | .declared => .head
  | _ => .group

def behind (last : Last) (name : Bytes) : Last :=
  if (["int", "byte", "void"].map utf8).contains name then .typed
  else if name = "sizeof" then .measure
  else if (["if", "for", "while"].map utf8).contains name then .control
  else if (["else", "return", "break", "continue"].map utf8).contains name then .start
  else if last = .typed then .declared
  else .operand

def calls (last : Last) (name : Bytes) (next : Nat) : Bool := last != .typed && !isReserved name && next = '('.toNat

theorem behind_of_unreserved (unreserved : isReserved name = false) (last : Last) :
    last.behind (lower name) = if last = .typed then .declared else .operand := by
  have others : ∀ word ∈ reservedWords, lower name ≠ word := by
    intro word listed same
    rw [isReserved, List.contains_eq_mem, same, decide_eq_false_iff_not] at unreserved
    exact unreserved listed
  simp only [reservedWords, List.map_cons, List.map_nil, List.forall_mem_cons] at others
  simp [behind, others]

end Last

namespace Mood

def closed (m : Mood) : Mood :=
  match m.brackets with
  | .size :: outer => ⟨.operand, outer⟩
  | .head :: outer => ⟨.start, outer⟩
  | .group :: outer => ⟨if m.last = .typed then .start else .operand, outer⟩
  | [] => ⟨.start, []⟩

def expects (m : Mood) : Bool := m.last != .operand && m.last != .sign

def doubles (m : Mood) (code next : Nat) : Bool :=
  m.expects && (code = '+'.toNat || code = '-'.toNat) && next = code

def after (m : Mood) (code : Nat) : Mood :=
  if code = '('.toNat then ⟨.start, m.last.bracket :: m.brackets⟩
  else if code = ')'.toNat then m.closed
  else if code = '*'.toNat && m.last = .typed then m
  else if code = ']'.toNat || isDigit code then { m with last := .operand }
  else { m with last := .start }

def mark (m : Mood) (code next : Nat) : Mood :=
  if Reader.isSkipped code then m
  else if m.doubles code next then { m with last := .sign }
  else m.after code

def joins (m : Mood) (code next : Nat) : Bool :=
  isDigit code && isDigit next
    || code = '>'.toNat && (next = '='.toNat || next = '>'.toNat)
    || code = '<'.toNat && (next = '='.toNat || next = '<'.toNat)
    || (code = '='.toNat || code = '!'.toNat) && next = '='.toNat
    || m.doubles code next
    || m.expects && code = '-'.toNat && (isDigit next || next = '\''.toNat)

end Mood

def isVisible (code : Nat) : Bool := !startsWord code && !Reader.isSkipped code

theorem isVisible_of_isDigit (digit : isDigit code = true) : isVisible code = true := by
  simp only [isDigit, Bool.and_eq_true, decide_eq_true_eq] at digit
  have few : ∀ code < 58, 48 ≤ code → isVisible code = true := by decide
  exact few code (by omega) digit.1

theorem Mood.isVisible_of_joins {m : Mood} (joined : m.joins code next = true) :
    isVisible next = true := by
  simp only [joins, doubles, Bool.or_eq_true, Bool.and_eq_true, decide_eq_true_eq] at joined
  rcases joined with
    ((((⟨_, digit⟩ | ⟨_, rfl | rfl⟩) | ⟨_, rfl | rfl⟩) | ⟨_, rfl⟩) | ⟨⟨_, sign⟩, rfl⟩) | ⟨_, digit | rfl⟩
  · exact isVisible_of_isDigit digit
  · decide
  · decide
  · decide
  · decide
  · decide
  · rcases sign with rfl | rfl <;> decide
  · exact isVisible_of_isDigit digit
  · decide

def Source.lastInside (source : Source) (pos : Position) : Position :=
  if source.charAt (source.next pos) = '\\'.toNat then source.next (source.next pos) else source.next pos

def Source.closes (source : Source) (pos : Position) : Bool :=
  source.charAt (source.next (source.lastInside pos)) = '\''.toNat

namespace Source

inductive Blanks (source : Source) : Position → Position → Prop
  | here {p : Position} (shown : Reader.isSkipped (source.charAt p) = false) : Blanks source p p
  | past {p q : Position} (blank : Reader.isSkipped (source.charAt p) = true) (rest : Blanks source (source.next p) q) :
      Blanks source p q

variable {source : Source}

theorem Blanks.here_of (blanks : source.Blanks p q) (shown : Reader.isSkipped (source.charAt p) = false) : q = p := by
  cases blanks with
  | here => rfl
  | past blank _ => rw [shown] at blank; cases blank

theorem Blanks.rest (blanks : source.Blanks p q) (blank : Reader.isSkipped (source.charAt p) = true) :
    source.Blanks (source.next p) q := by
  cases blanks with
  | here shown => rw [shown] at blank; cases blank
  | past _ rest => exact rest

theorem blanks_skipUpTo (enough : source.remaining r.pos ≤ limit) :
    source.Blanks r.pos (Reader.skipUpTo source limit r).2.pos := by
  have stops := Reader.skipUpTo_stops enough
  induction limit generalizing r with
  | zero => exact .here stops
  | succ limit ih =>
    simp only [Reader.skipUpTo] at stops ⊢
    by_cases blank : Reader.isSkipped (r.peek source) = true
    · have more : r.peek source ≠ endOfFile := by
        intro ended
        rw [ended] at blank
        exact absurd blank (by decide)
      have fewer := (Reader.advance_later more).2
      rw [if_pos blank] at stops ⊢
      have further := ih (r := r.advance source) (by omega) stops
      rw [Reader.advance_pos] at further
      exact .past blank further
    · rw [if_neg blank]
      exact .here (Bool.eq_false_iff.mpr blank)

theorem blanks_skip (source : Source) (r : Reader) : source.Blanks r.pos (r.skip source).2.pos :=
  blanks_skipUpTo (source.remaining_le_size r.pos)

end Source

structure Rewriting where
  source : Source
  other : Source
  respells : Bool
  respaces : Bool

namespace Rewriting

/-- From these positions on, the second source is the first one rewritten. Where `free` is false, no blank may be
put. -/
inductive Alike (w : Rewriting) : Mood → (free : Bool) → Position → Position → Prop
  | ended {m : Mood} {free : Bool} {p q : Position} (together : w.respaces = false → q = p)
      (ends : w.source.charAt p = endOfFile) (endsToo : w.other.charAt q = endOfFile) : Alike w m free p q
  | inserted {m : Mood} {p q : Position} (respaces : w.respaces = true)
      (blank : Reader.isSkipped (w.other.charAt q) = true) (rest : Alike w m true p (w.other.next q)) :
      Alike w m true p q
  | mark {m : Mood} {free : Bool} {p q : Position} (together : w.respaces = false → q = p)
      (more : w.source.charAt p ≠ endOfFile) (isMark : isMark (w.source.charAt p) = true)
      (same : w.other.charAt q = w.source.charAt p)
      (rest : Alike w (m.mark (w.source.charAt p) (w.source.charAt (w.source.next p)))
        (!m.joins (w.source.charAt p) (w.source.charAt (w.source.next p))) (w.source.next p) (w.other.next q)) :
      Alike w m free p q
  | word {m : Mood} {free : Bool} {p q : Position} (together : w.respaces = false → q = p)
      (isWord : w.source.wordAt p ≠ []) (plain : w.source.wordAt p ≠ "__asm")
      (same : folded (w.other.wordAt q) = folded (w.source.wordAt p))
      (kept : w.respells = false ∨ fixedWords.contains (lower (w.source.wordAt p)) = true →
        w.other.wordAt q = w.source.wordAt p)
      (rest : Alike w { m with last := m.last.behind (lower (w.source.wordAt p)) }
        (!m.last.calls (w.source.wordAt p) (w.source.charAt (w.source.afterWord p))) (w.source.afterWord p)
        (w.other.afterWord q)) :
      Alike w m free p q
  | character {m : Mood} {free : Bool} {p q : Position} (together : w.respaces = false → q = p)
      (quoted : w.source.charAt p = '\''.toNat) (quotedToo : w.other.charAt q = '\''.toNat)
      (same : w.other.charAt (w.other.next q) = w.source.charAt (w.source.next p))
      (sameLast : w.other.charAt (w.other.lastInside q) = w.source.charAt (w.source.lastInside p))
      (closed : w.source.closes p = true) (closedToo : w.other.closes q = true)
      (rest : Alike w { m with last := .operand } true (w.source.afterCharacter p) (w.other.afterCharacter q)) :
      Alike w m free p q
  | unclosed {m : Mood} {free : Bool} {p q : Position} (together : w.respaces = false → q = p)
      (quoted : w.source.charAt p = '\''.toNat) (quotedToo : w.other.charAt q = '\''.toNat)
      (isOpen : w.source.closes p = false) (isOpenToo : w.other.closes q = false) : Alike w m free p q

variable {w : Rewriting} {m : Mood} {free : Bool} {p q : Position}

def rewrites (w : Rewriting) : Nat → Mood → (free : Bool) → Position → Position → Bool
  | 0, _, _, _, _ => false
  | n + 1, m, free, p, q =>
    if free && w.respaces && Reader.isSkipped (w.other.charAt q) && w.other.charAt q != w.source.charAt p then
      w.rewrites n m true p (w.other.next q)
    else (w.respaces || q = p) &&
      if w.source.charAt p = endOfFile then w.other.charAt q = endOfFile
      else if w.source.wordAt p ≠ [] then
        w.source.wordAt p ≠ "__asm" && folded (w.other.wordAt q) = folded (w.source.wordAt p)
          && (w.respells && !fixedWords.contains (lower (w.source.wordAt p)) || w.other.wordAt q = w.source.wordAt p)
          && w.rewrites n { m with last := m.last.behind (lower (w.source.wordAt p)) }
            (!m.last.calls (w.source.wordAt p) (w.source.charAt (w.source.afterWord p))) (w.source.afterWord p)
            (w.other.afterWord q)
      else if w.source.charAt p = '\''.toNat then
        w.other.charAt q = '\''.toNat
          && if w.source.closes p then
            w.other.charAt (w.other.next q) = w.source.charAt (w.source.next p)
              && w.other.charAt (w.other.lastInside q) = w.source.charAt (w.source.lastInside p) && w.other.closes q
              && w.rewrites n { m with last := .operand } true (w.source.afterCharacter p) (w.other.afterCharacter q)
          else !w.other.closes q
      else
        isMark (w.source.charAt p) && w.other.charAt q = w.source.charAt p
          && w.rewrites n (m.mark (w.source.charAt p) (w.source.charAt (w.source.next p)))
            (!m.joins (w.source.charAt p) (w.source.charAt (w.source.next p))) (w.source.next p) (w.other.next q)

theorem alike_of_rewrites (rewrites : w.rewrites n m free p q = true) : w.Alike m free p q := by
  induction n generalizing m free p q with
  | zero => cases rewrites
  | succ n ih =>
    rw [Rewriting.rewrites] at rewrites
    split at rewrites
    · rename_i inserts
      simp only [Bool.and_eq_true] at inserts
      obtain ⟨⟨⟨rfl, respaces⟩, blank⟩, _⟩ := inserts
      exact .inserted respaces blank (ih rewrites)
    · simp only [Bool.and_eq_true, Bool.or_eq_true, decide_eq_true_eq] at rewrites
      obtain ⟨together, rewrites⟩ := rewrites
      have together : w.respaces = false → q = p := by
        intro fixed
        rcases together with respaces | together
        · rw [fixed] at respaces
          cases respaces
        · exact together
      split at rewrites
      · rename_i ends
        exact .ended together ends (of_decide_eq_true rewrites)
      · rename_i more
        split at rewrites
        · rename_i isWord
          simp only [Bool.and_eq_true, Bool.or_eq_true, decide_eq_true_eq, Bool.not_eq_true'] at rewrites
          obtain ⟨⟨⟨plain, same⟩, kept⟩, rest⟩ := rewrites
          refine .word together isWord plain same (fun fixed => ?_) (ih rest)
          rcases kept with ⟨respells, free⟩ | kept
          · rw [respells, free] at fixed
            simp at fixed
          · exact kept
        · split at rewrites
          · rename_i quoted
            simp only [Bool.and_eq_true, decide_eq_true_eq] at rewrites
            obtain ⟨quotedToo, rewrites⟩ := rewrites
            split at rewrites
            · rename_i closed
              simp only [Bool.and_eq_true, decide_eq_true_eq] at rewrites
              obtain ⟨⟨⟨same, sameLast⟩, closedToo⟩, rest⟩ := rewrites
              exact .character together quoted quotedToo same sameLast closed closedToo (ih rest)
            · rename_i isOpen
              simp only [Bool.not_eq_true'] at rewrites
              exact .unclosed together quoted quotedToo (Bool.eq_false_iff.mpr isOpen) rewrites
          · simp only [Bool.and_eq_true, decide_eq_true_eq] at rewrites
            obtain ⟨⟨isMark, same⟩, rest⟩ := rewrites
            exact .mark together more isMark same (ih rest)

def view (w : Rewriting) (pos : Position) : Position := if w.respaces then .start else pos

namespace Alike

theorem startsWord_of_same {source other : Source} (isWord : source.wordAt p ≠ [])
    (same : folded (other.wordAt q) = folded (source.wordAt p)) : startsWord (other.charAt q) = true := by
  apply Uses.startsWord_of_wordAt
  intro nothing
  rw [nothing] at same
  exact isWord (List.map_eq_nil_iff.mp same.symm)

variable {code : Nat}

theorem not_skipped_of_startsWord (starts : startsWord code = true) : Reader.isSkipped code = false := by
  cases blank : Reader.isSkipped code with
  | false => rfl
  | true =>
    simp only [Reader.isSkipped, Bool.or_eq_true, beq_iff_eq] at blank
    rcases blank with ((blank | blank) | blank) | blank <;> rw [blank] at starts <;> exact absurd starts (by decide)

theorem view_eq (alike : w.Alike m free p q) : w.view q = w.view p := by
  rw [view, view]
  cases respaces : w.respaces with
  | true => rfl
  | false =>
    cases alike with
    | inserted spaced _ _ => rw [respaces] at spaced; cases spaced
    | ended together _ _ => exact together respaces
    | mark together _ _ _ _ => exact together respaces
    | word together _ _ _ _ _ => exact together respaces
    | character together _ _ _ _ _ _ _ => exact together respaces
    | unclosed together _ _ _ _ => exact together respaces

theorem sees (alike : w.Alike m free p q) (shown : free = false ∨ Reader.isSkipped (w.other.charAt q) = false)
    (mark : startsWord (w.source.charAt p) = false) : w.other.charAt q = w.source.charAt p := by
  cases alike with
  | ended _ ends endsToo => rw [ends, endsToo]
  | inserted _ blank _ =>
    rcases shown with fixed | shown
    · cases fixed
    · rw [shown] at blank; cases blank
  | mark _ _ _ same _ => exact same
  | word _ isWord _ _ _ _ => rw [Uses.startsWord_of_wordAt isWord] at mark; cases mark
  | character _ quoted quotedToo _ _ _ _ _ => rw [quoted, quotedToo]
  | unclosed _ quoted quotedToo _ _ => rw [quoted, quotedToo]

theorem startsWord_eq (alike : w.Alike m free p q) (shown : Reader.isSkipped (w.other.charAt q) = false) :
    startsWord (w.other.charAt q) = startsWord (w.source.charAt p) := by
  cases alike with
  | ended _ ends endsToo => rw [ends, endsToo]
  | inserted _ blank _ => rw [shown] at blank; cases blank
  | mark _ _ _ same _ => rw [same]
  | word _ isWord _ same _ _ => rw [startsWord_of_same isWord same, Uses.startsWord_of_wordAt isWord]
  | character _ quoted quotedToo _ _ _ _ _ => rw [quoted, quotedToo]
  | unclosed _ quoted quotedToo _ _ => rw [quoted, quotedToo]

theorem sees_back (alike : w.Alike m free p q) (shown : Reader.isSkipped (w.other.charAt q) = false)
    (mark : startsWord (w.other.charAt q) = false) : w.other.charAt q = w.source.charAt p :=
  alike.sees (Or.inr shown) (alike.startsWord_eq shown ▸ mark)

theorem step (alike : w.Alike m free p q) (shows : w.source.charAt p = code) (showsToo : w.other.charAt q = code)
    (mark : isMark code = true) (shown : Reader.isSkipped code = false) (more : code ≠ endOfFile) :
    w.Alike (m.mark code (w.source.charAt (w.source.next p))) (!m.joins code (w.source.charAt (w.source.next p)))
      (w.source.next p) (w.other.next q) := by
  subst shows
  cases alike with
  | ended _ ends _ => exact absurd ends more
  | inserted _ blank _ => rw [showsToo, shown] at blank; cases blank
  | mark _ _ _ _ rest => exact rest
  | word _ isWord _ _ _ _ =>
    rw [isMark, Uses.startsWord_of_wordAt isWord] at mark
    cases mark
  | character _ quoted _ _ _ _ _ _ =>
    rw [quoted] at mark
    exact absurd mark (by decide)
  | unclosed _ quoted _ _ _ =>
    rw [quoted] at mark
    exact absurd mark (by decide)

theorem joint (alike : w.Alike m free p q) (visible : isVisible code = true)
    (shown : w.source.charAt p = code → free = false ∨ Reader.isSkipped (w.other.charAt q) = false) :
    w.source.charAt p = code ↔ w.other.charAt q = code := by
  simp only [isVisible, Bool.and_eq_true, Bool.not_eq_true'] at visible
  constructor
  · intro here
    subst here
    exact alike.sees (shown rfl) visible.1
  · intro here
    subst here
    exact (alike.sees_back visible.2 visible.1).symm

theorem word_cases (alike : w.Alike m free p q) (shown : Reader.isSkipped (w.other.charAt q) = false) :
    (w.source.wordAt p = [] ∧ w.other.wordAt q = []) ∨
      (w.source.wordAt p ≠ [] ∧ w.source.wordAt p ≠ "__asm" ∧
        folded (w.other.wordAt q) = folded (w.source.wordAt p) ∧
        (w.respells = false ∨ fixedWords.contains (lower (w.source.wordAt p)) = true →
          w.other.wordAt q = w.source.wordAt p) ∧
        w.Alike { m with last := m.last.behind (lower (w.source.wordAt p)) }
          (!m.last.calls (w.source.wordAt p) (w.source.charAt (w.source.afterWord p))) (w.source.afterWord p)
          (w.other.afterWord q)) := by
  have wordless {source : Source} {p : Position} (mark : startsWord (source.charAt p) = false) :
      source.wordAt p = [] := by
    cases empty : source.wordAt p with
    | nil => rfl
    | cons first rest =>
      have starts : startsWord (source.charAt p) = true :=
        Uses.startsWord_of_wordAt (by rw [empty]; exact List.cons_ne_nil _ _)
      rw [mark] at starts
      cases starts
  by_cases starts : startsWord (w.source.charAt p) = true
  · cases alike with
    | ended _ ends _ => rw [ends] at starts; exact absurd starts (by decide)
    | inserted _ blank _ => rw [shown] at blank; cases blank
    | mark _ _ isMark _ _ => rw [Cb.isMark, starts] at isMark; cases isMark
    | word _ isWord plain same kept rest => exact .inr ⟨isWord, plain, same, kept, rest⟩
    | character _ quoted _ _ _ _ _ _ => rw [quoted] at starts; exact absurd starts (by decide)
    | unclosed _ quoted _ _ _ => rw [quoted] at starts; exact absurd starts (by decide)
  · have none := Bool.eq_false_iff.mpr starts
    exact .inl ⟨wordless none, wordless (alike.startsWord_eq shown ▸ none)⟩

theorem quote_cases (alike : w.Alike m free p q) (quoted : w.source.charAt p = '\''.toNat)
    (quotedToo : w.other.charAt q = '\''.toNat) :
    (w.source.closes p = false ∧ w.other.closes q = false) ∨
      (w.other.charAt (w.other.next q) = w.source.charAt (w.source.next p) ∧
        w.other.charAt (w.other.lastInside q) = w.source.charAt (w.source.lastInside p) ∧
        w.source.closes p = true ∧ w.other.closes q = true ∧
        w.Alike { m with last := .operand } true (w.source.afterCharacter p) (w.other.afterCharacter q)) := by
  cases alike with
  | ended _ ends _ => rw [quoted] at ends; exact absurd ends (by decide)
  | inserted _ blank _ => rw [quotedToo] at blank; exact absurd blank (by decide)
  | mark _ _ isMark _ _ => rw [quoted] at isMark; exact absurd isMark (by decide)
  | word _ isWord _ _ _ _ =>
    have starts := Uses.startsWord_of_wordAt isWord
    rw [quoted] at starts
    exact absurd starts (by decide)
  | character _ _ _ same sameLast closed closedToo rest => exact .inr ⟨same, sameLast, closed, closedToo, rest⟩
  | unclosed _ _ _ isOpen isOpenToo => exact .inl ⟨isOpen, isOpenToo⟩

theorem pastBlanks (alike : w.Alike m free p q) (blanks : w.source.Blanks p p') (blanksToo : w.other.Blanks q q') :
    ∃ free, w.Alike m free p' q' := by
  induction alike with
  | ended together ends endsToo =>
    cases blanks.here_of (by rw [ends]; decide)
    cases blanksToo.here_of (by rw [endsToo]; decide)
    exact ⟨true, .ended together ends endsToo⟩
  | inserted _ blank _ ih => exact ih blanks (blanksToo.rest blank)
  | @mark m free p q together more isMark same rest ih =>
    by_cases blank : Reader.isSkipped (w.source.charAt p) = true
    · obtain ⟨free, further⟩ := ih (blanks.rest blank) (blanksToo.rest (same ▸ blank))
      rw [Mood.mark, if_pos blank] at further
      exact ⟨free, further⟩
    · cases blanks.here_of (Bool.eq_false_iff.mpr blank)
      cases blanksToo.here_of (by rw [same]; exact Bool.eq_false_iff.mpr blank)
      exact ⟨free, .mark together more isMark same rest⟩
  | @word m free p q together isWord plain same kept rest _ =>
    cases blanks.here_of (not_skipped_of_startsWord (Uses.startsWord_of_wordAt isWord))
    cases blanksToo.here_of (not_skipped_of_startsWord (startsWord_of_same isWord same))
    exact ⟨free, .word together isWord plain same kept rest⟩
  | @character m free p q together quoted quotedToo same sameLast closed closedToo rest _ =>
    cases blanks.here_of (by rw [quoted]; decide)
    cases blanksToo.here_of (by rw [quotedToo]; decide)
    exact ⟨free, .character together quoted quotedToo same sameLast closed closedToo rest⟩
  | @unclosed m free p q together quoted quotedToo isOpen isOpenToo =>
    cases blanks.here_of (by rw [quoted]; decide)
    cases blanksToo.here_of (by rw [quotedToo]; decide)
    exact ⟨free, .unclosed together quoted quotedToo isOpen isOpenToo⟩

end Alike

end Rewriting

/-- The second source is the first one with some names written in another case. -/
def Source.Respelled (source other : Source) : Prop :=
  Rewriting.Alike ⟨source, other, true, false⟩ {} true .start .start

/-- The second source is the first one with more blanks between its tokens. None stands before the parenthesis of a
call. -/
def Source.Respaced (source other : Source) : Prop := Rewriting.Alike ⟨source, other, false, true⟩ {} true .start .start

end Cb
