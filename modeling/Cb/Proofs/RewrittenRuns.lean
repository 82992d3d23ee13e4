import Cb.Proofs.Layout
import Cb.Proofs.Relocation
import Cb.Proofs.Rewriting

/-! Reading a source and a rewritten one side by side: both readers are at the same token all the time, and what one
has read is what the other has read, but for positions. -/

namespace Cb

def Entry.isNamed : Entry → Bool
  | .slot name _ _ => !isReserved name
  | .functionMark | .blockMark => true

namespace Rewriting

structure Scopes (w : Rewriting) (s t : Scope) : Prop where
  types : s.types = Ty.builtins
  typesToo : t.types = Ty.builtins
  stack : t.stack = s.stack
  functions : t.functions.map (Function.relocated w.view) = s.functions.map (Function.relocated w.view)
  isVariable : ∀ entry ∈ s.stack, entry.isNamed = true
  isFunction : ∀ f ∈ s.functions, isReserved f.name = false

structure Loose (w : Rewriting) (m : Mood) (r twin : Reader) : Prop where
  alike : ∃ free, w.Alike m free r.pos twin.pos
  scopes : w.Scopes r.scope twin.scope

structure Level (w : Rewriting) (m : Mood) (r twin : Reader) : Prop extends Loose w m r twin where
  shown : Reader.isSkipped (r.peek w.source) = false
  shownToo : Reader.isSkipped (twin.peek w.other) = false

structure Joint (w : Rewriting) (codes : Nat → Bool) (m : Mood) (r twin : Reader) : Prop extends Loose w m r twin where
  sees : ∀ code, codes code = true → (r.peek w.source = code ↔ twin.peek w.other = code)

structure Marked (w : Rewriting) (m : Mood) (c d : Checkpoint) (r twin : Reader) : Prop extends Level w m r twin where
  began : ∃ free, w.Alike m free c.pos d.pos
  ahead : w.source.Ahead c.pos r.pos
  aheadToo : w.other.Ahead d.pos twin.pos
  own : c.sizes = r.scope.sizes
  ownToo : d.sizes = twin.scope.sizes

class ShowsScopes (w : Rewriting) (pre : Reader → Reader → Prop) : Prop where
  scopes : ∀ r twin, pre r twin → w.Scopes r.scope twin.scope

instance : ShowsScopes w (w.Loose m) := ⟨fun _ _ => Loose.scopes⟩

instance : ShowsScopes w (w.Level m) := ⟨fun _ _ here => here.scopes⟩

instance : ShowsScopes w (w.Joint codes m) := ⟨fun _ _ here => here.scopes⟩

structure Marks (w : Rewriting) (c d : Checkpoint) : Prop where
  view : w.view d.pos = w.view c.pos
  rewinds : ∀ s t, w.Scopes s t → w.Scopes (s.truncate c.sizes) (t.truncate d.sizes)

def isSign (code : Nat) : Bool := isMark code && !Reader.isSkipped code && code != endOfFile

def isPlain (code : Nat) : Bool := isSign code && code != '+'.toNat && code != '-'.toNat

def Reads {α : Type} (w : Rewriting) (image : α → α) (m : Mood) (value mirrored : α) (r twin : Reader) : Prop :=
  image mirrored = image value ∧ w.Loose m r twin

abbrev ReadsTree (w : Rewriting) (st : List Bracket) : Expr → Expr → Reader → Reader → Prop :=
  w.Reads (Expr.relocated w.view) ⟨.operand, st⟩

variable {w : Rewriting} {m : Mood} {r twin : Reader} {s t : Scope}

namespace Scopes

theorem findVariable?_eq (scopes : w.Scopes s t) (name : Bytes) : t.findVariable? name = s.findVariable? name := by
  rw [Scope.findVariable?, Scope.findVariable?, scopes.stack]

theorem findType?_eq (scopes : w.Scopes s t) (name : Bytes) : t.findType? name = s.findType? name := by
  rw [Scope.findType?, Scope.findType?, scopes.types, scopes.typesToo]

theorem findFunction?_eq (scopes : w.Scopes s t) (name : Bytes) :
    (t.findFunction? name).map (Function.relocated w.view) =
      (s.findFunction? name).map (Function.relocated w.view) := by
  simp only [Scope.findFunction?, ← Scope.findFunction_relocated, scopes.functions]

theorem sizes_eq (scopes : w.Scopes s t) : t.sizes = s.sizes := by
  have count := congrArg List.length scopes.functions
  rw [List.length_map, List.length_map] at count
  simp only [Scope.sizes, scopes.types, scopes.typesToo, scopes.stack, count]

theorem pushed (scopes : w.Scopes s t) (named : entry.isNamed = true) :
    w.Scopes (s.push entry) (t.push entry) where
  types := scopes.types
  typesToo := scopes.typesToo
  stack := congrArg (entry :: ·) scopes.stack
  functions := scopes.functions
  isVariable := List.forall_mem_cons.mpr ⟨named, scopes.isVariable⟩
  isFunction := scopes.isFunction

theorem truncated (scopes : w.Scopes s t) (types : sizes.types = Ty.builtins.length) :
    w.Scopes (s.truncate sizes) (t.truncate sizes) where
  types := by rw [Scope.truncate, scopes.types, types, List.take_length]
  typesToo := by rw [Scope.truncate, scopes.typesToo, types, List.take_length]
  stack := by rw [Scope.truncate, Scope.truncate, scopes.stack]
  functions := by rw [Scope.truncate, Scope.truncate, List.map_take, List.map_take, scopes.functions]
  isVariable entry member := scopes.isVariable entry (List.mem_of_mem_drop member)
  isFunction f member := scopes.isFunction f (List.mem_of_mem_take member)

variable {name : Bytes}

theorem unreserved_of_findFrom {above stack : List Entry} (named : ∀ entry ∈ stack, entry.isNamed = true)
    (found : Stack.findFrom name above stack = some v) : isReserved name = false := by
  obtain ⟨_, rfl, member⟩ := Stack.slot_of_findFrom found
  simpa [Entry.isNamed] using named _ member

theorem isReserved_lower (word : Bytes) : isReserved (lower word) = isReserved word := by
  rw [isReserved, isReserved, lower_lower]

theorem unreserved_of_findVariable? (scopes : w.Scopes s t) {v : Variable} (found : s.findVariable? name = some v) :
    isReserved name = false := by
  rw [← isReserved_lower]
  exact unreserved_of_findFrom scopes.isVariable found

theorem findFunction?_reserved (scopes : w.Scopes s t) (reserved : isReserved name = true) :
    s.findFunction? name = none := by
  rw [Scope.findFunction?, List.find?_eq_none]
  intro f member same
  rw [decide_eq_true_eq] at same
  have unreserved := scopes.isFunction f member
  rw [same, isReserved_lower, reserved] at unreserved
  cases unreserved

theorem defined (scopes : w.Scopes s t) (unreserved : isReserved name = false) (ty : Ty) (size : Int) :
    (t.define name ty size).1 = (s.define name ty size).1 ∧
      w.Scopes (s.define name ty size).2 (t.define name ty size).2 := by
  have named : (Entry.slot (lower name) ty (size + size.tmod 2)).isNamed = true := by
    rw [Entry.isNamed, isReserved_lower, unreserved]
    rfl
  refine ⟨?_, scopes.pushed named⟩
  simp only [Scope.define, Scope.push, scopes.stack]

theorem exited (scopes : w.Scopes s t) (mark : Entry) :
    (t.exit mark).1 = (s.exit mark).1 ∧ w.Scopes (s.exit mark).2 (t.exit mark).2 := by
  have below (stack : Stack) : ∀ entry ∈ (stack.exit mark).2, entry ∈ stack := by
    induction stack with
    | nil => exact nofun
    | cons first rest ih =>
      intro entry member
      rw [Stack.exit] at member
      split at member
      · exact List.mem_cons_of_mem _ member
      · exact List.mem_cons_of_mem _ (ih entry member)
  simp only [Scope.exit, scopes.stack]
  exact ⟨trivial, scopes.types, scopes.typesToo, rfl, scopes.functions,
    fun entry member => scopes.isVariable entry (below s.stack entry member), scopes.isFunction⟩

end Scopes

def IsStable (pre : Reader → Reader → Prop) : Prop :=
  ∀ r twin after afterTwin : Reader, pre r twin → after.pos = r.pos → after.scope = r.scope →
    afterTwin.pos = twin.pos → afterTwin.scope = twin.scope → pre after afterTwin

theorem peek_congr {source : Source} {after : Reader} (same : after.pos = r.pos) :
    after.peek source = r.peek source := by
  simp only [Reader.peek, same]

theorem Loose.stable : IsStable (w.Loose m) := by
  intro r twin after afterTwin loose pos scope posToo scopeToo
  obtain ⟨alike, scopes⟩ := loose
  exact ⟨by rwa [pos, posToo], by rwa [scope, scopeToo]⟩

theorem Level.stable : IsStable (w.Level m) := by
  intro r twin after afterTwin level pos scope posToo scopeToo
  obtain ⟨loose, shown, shownToo⟩ := level
  refine ⟨Loose.stable r twin after afterTwin loose pos scope posToo scopeToo, ?_, ?_⟩
  · rwa [peek_congr pos]
  · rwa [peek_congr posToo]

theorem Marked.stable : IsStable (w.Marked m c d) := by
  intro r twin after afterTwin marked pos scope posToo scopeToo
  obtain ⟨level, began, ahead, aheadToo, own, ownToo⟩ := marked
  exact ⟨Level.stable r twin after afterTwin level pos scope posToo scopeToo, began, by rwa [pos], by rwa [posToo],
    by rwa [scope], by rwa [scopeToo]⟩

theorem Marked.back (marked : w.Marked m c d r twin) {after afterTwin : Reader}
    (further : w.source.Ahead r.pos after.pos) (kept : after.scope = r.scope)
    (furtherToo : w.other.Ahead twin.pos afterTwin.pos) (keptToo : afterTwin.scope = twin.scope) :
    w.Loose m (after.restore c) (afterTwin.restore d) := by
  constructor
  · rw [Reader.restore_pos (marked.ahead.trans further), Reader.restore_pos (marked.aheadToo.trans furtherToo)]
    exact marked.began
  · change w.Scopes (after.scope.truncate c.sizes) (afterTwin.scope.truncate d.sizes)
    rw [kept, keptToo, marked.own, marked.ownToo, Scope.truncate_sizes, Scope.truncate_sizes]
    exact marked.scopes

theorem Loose.view_eq (loose : w.Loose m r twin) : w.view twin.pos = w.view r.pos := by
  obtain ⟨free, alike⟩ := loose.alike
  exact alike.view_eq

theorem Loose.marks (loose : w.Loose m r twin) : w.Marks r.checkpoint twin.checkpoint where
  view := loose.view_eq
  rewinds s t scopes := by
    change w.Scopes (s.truncate r.scope.sizes) (t.truncate twin.scope.sizes)
    rw [loose.scopes.sizes_eq]
    refine scopes.truncated ?_
    rw [Scope.sizes, loose.scopes.types]

theorem Level.joint (level : w.Level m r twin) : w.Joint isVisible m r twin where
  toLoose := level.toLoose
  sees code visible := by
    obtain ⟨free, alike⟩ := level.alike
    exact alike.joint visible fun _ => Or.inr level.shownToo

theorem Joint.imp (joint : w.Joint codes m r twin) (implies : ∀ code, fewer code = true → codes code = true) :
    w.Joint fewer m r twin :=
  ⟨joint.toLoose, fun code listed => joint.sees code (implies code listed)⟩

variable {code : Nat}

theorem Joint.advance (joint : w.Joint codes m r twin) (listed : codes code = true) (sign : isSign code = true)
    (here : r.peek w.source = code) :
    w.Joint (m.joins code) (m.mark code ((r.advance w.source).peek w.source)) (r.advance w.source)
      (twin.advance w.other) := by
  simp only [isSign, Bool.and_eq_true, Bool.not_eq_true', bne_iff_ne] at sign
  obtain ⟨⟨mark, shown⟩, more⟩ := sign
  obtain ⟨free, alike⟩ := joint.alike
  have hereToo := (joint.sees code listed).mp here
  have further := alike.step here hereToo mark shown more
  rw [← Reader.advance_pos, ← Reader.advance_pos] at further
  refine ⟨⟨⟨_, further⟩, ?_⟩, fun next joined => ?_⟩
  · rw [Reader.advance_scope, Reader.advance_scope]
    exact joint.scopes
  · exact further.joint (Mood.isVisible_of_joins joined) fun here => Or.inl (by rw [here, joined]; rfl)

theorem isSign_of_isPlain (plain : isPlain code = true) : isSign code = true := by
  simp only [isPlain, Bool.and_eq_true] at plain
  exact plain.1.1

theorem mark_of_isPlain (plain : isPlain code = true) (next : Nat) : m.mark code next = m.after code := by
  simp only [isPlain, isSign, Bool.and_eq_true, Bool.not_eq_true', bne_iff_ne] at plain
  obtain ⟨⟨⟨⟨_, shown⟩, _⟩, noPlus⟩, noMinus⟩ := plain
  have single : m.doubles code next = false := by
    rw [Mood.doubles, decide_eq_false noPlus, decide_eq_false noMinus, Bool.or_self, Bool.and_false, Bool.false_and]
  rw [Mood.mark, if_neg (by rw [shown]; exact Bool.false_ne_true), if_neg (by rw [single]; exact Bool.false_ne_true)]

theorem isVisible_of_isSign (sign : isSign code = true) : isVisible code = true := by
  simp only [isSign, isMark, Bool.and_eq_true] at sign
  simp only [isVisible, Bool.and_eq_true]
  exact ⟨sign.1.1.1, sign.1.2⟩

theorem Loose.skipped (loose : w.Loose m r twin) : w.Level m (r.skip w.source).2 (twin.skip w.other).2 := by
  obtain ⟨⟨free, alike⟩, scopes⟩ := loose
  have further := alike.pastBlanks (w.source.blanks_skip r) (w.other.blanks_skip twin)
  refine ⟨⟨further, ?_⟩, Reader.skip_stops w.source r, Reader.skip_stops w.other twin⟩
  change w.Scopes (Reader.skipUpTo w.source _ r).2.scope (Reader.skipUpTo w.other _ twin).2.scope
  rw [Reader.skipUpTo_scope, Reader.skipUpTo_scope]
  exact scopes

theorem Loose.marked (loose : w.Loose m r twin) :
    w.Marked m r.checkpoint twin.checkpoint (r.skip w.source).2 (twin.skip w.other).2 where
  toLevel := loose.skipped
  began := loose.alike
  ahead := Reader.skip_ahead r
  aheadToo := Reader.skip_ahead twin
  own := congrArg Scope.sizes (Reader.skipUpTo_scope w.source _ r).symm
  ownToo := congrArg Scope.sizes (Reader.skipUpTo_scope w.other _ twin).symm

theorem Level.spelled (level : w.Level m r twin) (fixed : fixedWords.contains (lower text) = true) :
    w.source.wordAt r.pos = text ↔ w.other.wordAt twin.pos = text := by
  obtain ⟨free, alike⟩ := level.alike
  rcases alike.word_cases level.shownToo with ⟨none, noneToo⟩ | ⟨_, _, same, kept, _⟩
  · rw [none, noneToo]
  · constructor
    · intro here
      rw [← here]
      exact kept (Or.inr (here ▸ fixed))
    · intro here
      have lowered : lower (w.source.wordAt r.pos) = lower text := by
        rw [← lower_folded, ← same, here, lower_folded]
      rw [← here]
      exact (kept (Or.inr (by rw [lowered]; exact fixed))).symm

theorem Level.word (level : w.Level m r twin) (isWord : w.source.wordAt r.pos ≠ []) :
    w.other.wordAt twin.pos ≠ [] ∧ lower (w.other.wordAt twin.pos) = lower (w.source.wordAt r.pos) ∧
      ∀ after afterTwin : Reader, after.pos = w.source.afterWord r.pos → after.scope = r.scope →
        afterTwin.pos = w.other.afterWord twin.pos → afterTwin.scope = twin.scope →
        w.Joint (m.last.calls (w.source.wordAt r.pos)) { m with last := m.last.behind (lower (w.source.wordAt r.pos)) }
          after afterTwin := by
  obtain ⟨free, alike⟩ := level.alike
  rcases alike.word_cases level.shownToo with ⟨none, _⟩ | ⟨_, _, same, _, rest⟩
  · exact absurd none isWord
  · refine ⟨fun none => ?_, ?_, fun after afterTwin pos scope posToo scopeToo => ?_⟩
    · rw [none] at same
      exact isWord (List.map_eq_nil_iff.mp same.symm)
    · rw [← lower_folded, same, lower_folded]
    · have scopes : w.Scopes after.scope afterTwin.scope := by
        rw [scope, scopeToo]
        exact level.scopes
      refine ⟨⟨⟨_, by rw [pos, posToo]; exact rest⟩, scopes⟩, fun code called => ?_⟩
      have here : after.peek w.source = w.source.charAt (w.source.afterWord r.pos) := peek_congr pos
      have hereToo : afterTwin.peek w.other = w.other.charAt (w.other.afterWord twin.pos) := peek_congr posToo
      have opens : code = '('.toNat := by
        simp only [Last.calls, Bool.and_eq_true, decide_eq_true_eq] at called
        exact called.2
      rw [here, hereToo]
      exact rest.joint (by rw [opens]; decide) fun here => Or.inl (by rw [here, called]; rfl)

end Rewriting

namespace Reader

variable {source : Source}

variable {text : Bytes}

theorem expectCodes_of_restAt (continues : ∀ b ∈ text, continuesWord b.toNat = true)
    (written : source.restAt r.pos = text ++ rest) :
    ∃ after, expectCodes source c (text.map UInt8.toNat) r = (true, after) ∧ source.restAt after.pos = rest := by
  induction text generalizing r with
  | nil => exact ⟨r, rfl, written⟩
  | cons b text ih =>
    have found : r.peek source = b.toNat := peek_of_restAt.2 b (text ++ rest) written
    obtain ⟨starts, moved⟩ := advance_of_continues (continues b List.mem_cons_self) found
    have others : source.restAt (r.advance source).pos = text ++ rest := by
      rw [moved]
      exact (List.cons.inj (starts.symm.trans written)).2
    obtain ⟨after, ran, ahead⟩ := ih (fun other member => continues other (List.mem_cons_of_mem _ member)) others
    refine ⟨after, ?_, ahead⟩
    simp only [List.map_cons, expectCodes, expect, if_pos found]
    exact ran

theorem leadingWord_split (isWord : leadingWord text ≠ []) :
    ∃ rest, text = leadingWord text ++ rest ∧ rest.head?.any (continuesWord ·.toNat) = false := by
  cases text with
  | nil => exact absurd rfl isWord
  | cons first text =>
    rw [leadingWord] at isWord ⊢
    split at isWord
    · rename_i starts
      rw [if_pos starts]
      refine ⟨(first :: text).dropWhile (continuesWord ·.toNat), List.takeWhile_append_dropWhile.symm, ?_⟩
      have stops := List.head?_dropWhile_not (fun b : UInt8 => continuesWord b.toNat) (first :: text)
      cases head : ((first :: text).dropWhile (continuesWord ·.toNat)).head? with
      | none => rfl
      | some b =>
        rw [head] at stops
        simpa using stops
    · exact absurd rfl isWord

theorem IsKeyword.ne_nil (isKeyword : IsKeyword text) : text ≠ [] := by
  intro nothing
  have starts := isKeyword.2.1
  rw [nothing] at starts
  cases starts

theorem keyword_reads (isKeyword : IsKeyword text) (c : Checkpoint) (env : Env) (r : Reader) :
    (env.source.wordAt r.pos = text → ∃ after, Rule.keyword text c env r = .ok () after ∧
      after.pos = env.source.afterWord r.pos ∧ after.scope = r.scope) ∧
    (env.source.wordAt r.pos ≠ text → ∃ after, Rule.keyword text c env r = .fail after) := by
  obtain ⟨_, _, continues, codes⟩ := id isKeyword
  constructor
  · intro spelled
    have isWord : env.source.wordAt r.pos ≠ [] := by
      rw [spelled]
      exact isKeyword.ne_nil
    obtain ⟨rest, written, stops⟩ := leadingWord_split isWord
    change env.source.restAt r.pos = env.source.wordAt r.pos ++ rest at written
    rw [spelled] at written
    obtain ⟨after, ran, ahead⟩ := expectCodes_of_restAt (c := c) continues written
    have ran : expectText env.source text c r = (true, after) := by rw [expectText, codes, ran]
    have ended : continuesWord (after.peek env.source) = false := by
      cases rest with
      | nil => rcases peek_of_restAt.1 ahead with ended | ended <;> rw [ended] <;> decide
      | cons b rest =>
        rw [peek_of_restAt.2 b rest ahead]
        exact stops
    obtain ⟨_, kept, pos⟩ := expectText_keyword isKeyword ran ended
    refine ⟨after, ?_, pos, kept⟩
    rw [Rule.keyword_eq, ran]
    exact if_neg (by rw [ended]; exact Bool.false_ne_true)
  · intro unspelled
    rw [Rule.keyword_eq]
    cases ran : expectText env.source text c r with
    | mk moved after =>
      cases moved with
      | false => exact ⟨after, rfl⟩
      | true =>
        refine ⟨_, if_pos ?_⟩
        cases longer : continuesWord (after.peek env.source) with
        | true => rfl
        | false => exact absurd (expectText_keyword isKeyword ran longer).1 unspelled

end Reader

theorem Rewriting.Level.keyword {w : Rewriting} (level : w.Level m r twin)
    (listed : Reader.keywords.contains text = true) (c d : Checkpoint) (settings : Settings) :
    (∃ after afterTwin, Rule.keyword text c ⟨w.source, settings⟩ r = .ok () after ∧
      Rule.keyword text d ⟨w.other, settings⟩ twin = .ok () afterTwin ∧
      w.Loose { m with last := m.last.behind (lower text) } after afterTwin) ∨
    ∃ after afterTwin, Rule.keyword text c ⟨w.source, settings⟩ r = .fail after ∧
      Rule.keyword text d ⟨w.other, settings⟩ twin = .fail afterTwin := by
  obtain ⟨isKeyword, _, fixed⟩ := Reader.isKeyword_of_listed listed
  have reads := Reader.keyword_reads isKeyword c ⟨w.source, settings⟩ r
  have readsToo := Reader.keyword_reads isKeyword d ⟨w.other, settings⟩ twin
  by_cases spelled : w.source.wordAt r.pos = text
  · obtain ⟨after, ran, pos, scope⟩ := reads.1 spelled
    obtain ⟨afterTwin, ranToo, posToo, scopeToo⟩ := readsToo.1 ((level.spelled fixed).mp spelled)
    have isWord : w.source.wordAt r.pos ≠ [] := by
      rw [spelled]
      exact isKeyword.ne_nil
    have further := ((level.word isWord).2.2 after afterTwin pos scope posToo scopeToo).toLoose
    rw [spelled] at further
    exact .inl ⟨after, afterTwin, ran, ranToo, further⟩
  · obtain ⟨after, ran⟩ := reads.2 spelled
    obtain ⟨afterTwin, ranToo⟩ := readsToo.2 fun spelledToo => spelled ((level.spelled fixed).mpr spelledToo)
    exact .inr ⟨after, afterTwin, ran, ranToo⟩

def Reply.Tracks {α : Type} (post : α → α → Reader → Reader → Prop) : Reply α → Reply α → Prop
  | .ok value r, .ok mirrored twin => post value mirrored r twin
  | .ok _ _, .fail _ => False
  | .fail _, .ok _ _ => False
  | _, _ => True

namespace Reply.Tracks

variable {α : Type} {post : α → α → Reader → Reader → Prop} {reply mirror : Reply α}

theorem exhausted : (Reply.exhausted : Reply α).Tracks post mirror := by
  cases mirror <;> trivial

theorem exhaustedToo : reply.Tracks post .exhausted := by
  cases reply <;> trivial

theorem outcomes (tracks : reply.Tracks post mirror) :
    (∃ value r mirrored twin, reply = .ok value r ∧ mirror = .ok mirrored twin ∧ post value mirrored r twin) ∨
      (∃ r twin, reply = .fail r ∧ mirror = .fail twin) ∨ reply = .exhausted ∨ mirror = .exhausted := by
  cases reply with
  | exhausted => exact .inr (.inr (.inl rfl))
  | ok value r =>
    cases mirror with
    | ok mirrored twin => exact .inl ⟨value, r, mirrored, twin, rfl, rfl, tracks⟩
    | fail => cases tracks
    | exhausted => exact .inr (.inr (.inr rfl))
  | fail r =>
    cases mirror with
    | ok => cases tracks
    | fail twin => exact .inr (.inl ⟨r, twin, rfl, rfl⟩)
    | exhausted => exact .inr (.inr (.inr rfl))

end Reply.Tracks

theorem Rewriting.Level.undone {α : Type} {w : Rewriting} {grows growsToo : α → Scope → Scope → Prop}
    {rule mirror : Rule α} (level : w.Level m r twin) (settles : Rule.Settles ⟨w.source, settings⟩ grows spent rule)
    (settlesToo : Rule.Settles ⟨w.other, settings⟩ growsToo spentToo mirror)
    (ran : rule ⟨w.source, settings⟩ r = .fail after) (ranToo : mirror ⟨w.other, settings⟩ twin = .fail afterTwin) :
    w.Level m after afterTwin := by
  have back := settles r
  have backToo := settlesToo twin
  rw [ran] at back
  rw [ranToo] at backToo
  exact Level.stable r twin _ _ level back.1 back.2 backToo.1 backToo.2

def Rule.Tracks {α : Type} (w : Rewriting) (settings : Settings) (pre : Reader → Reader → Prop) (rule mirror : Rule α)
    (post : α → α → Reader → Reader → Prop) : Prop :=
  ∀ r twin, pre r twin → (rule ⟨w.source, settings⟩ r).Tracks post (mirror ⟨w.other, settings⟩ twin)

namespace Rule.Tracks

open Rewriting

variable {α β : Type} {w : Rewriting} {settings : Settings} {pre : Reader → Reader → Prop}
  {rule mirror other otherMirror : Rule α} {post : α → α → Reader → Reader → Prop} {c d : Checkpoint} {m : Mood}

theorem pure {value mirrored : α} (holds : ∀ r twin, pre r twin → post value mirrored r twin) :
    Tracks w settings pre (Pure.pure value) (Pure.pure mirrored) post := holds

theorem value {value mirrored : α} (same : image mirrored = image value) :
    Tracks w settings (w.Loose m) (Pure.pure value) (Pure.pure mirrored) (w.Reads image m) := fun _ _ here => ⟨same, here⟩

theorem of_pre (implies : ∀ r twin, pre r twin → wider r twin) (tracks : Tracks w settings wider rule mirror post) :
    Tracks w settings pre rule mirror post :=
  fun r twin here => tracks r twin (implies r twin here)

theorem exhausted : Tracks w settings pre Rule.exhausted mirror post := fun _ _ _ => .exhausted

theorem exhaustedToo : Tracks w settings pre rule Rule.exhausted post := fun _ _ _ => .exhaustedToo

variable {next nextMirror : Unit → Rule α} {result : β → β → Reader → Reader → Prop} {image : α → α} {reason : Reason}

theorem bind {next nextMirror : α → Rule β} (first : Tracks w settings pre rule mirror post)
    (second : ∀ value mirrored, Tracks w settings (post value mirrored) (next value) (nextMirror mirrored) result) :
    Tracks w settings pre (rule >>= next) (mirror >>= nextMirror) result := by
  intro r twin here
  rcases (first r twin here).outcomes with ⟨_, _, _, _, ran, ranToo, read⟩ | ⟨_, _, ran, ranToo⟩ | ran | ranToo
  · simp only [bind_apply, ran, ranToo]
    exact second _ _ _ _ read
  · simp only [bind_apply, ran, ranToo]
    trivial
  · simp only [bind_apply, ran]
    exact .exhausted
  · simp only [bind_apply, ranToo]
    exact .exhaustedToo

theorem assuming (tracks : fact → Tracks w settings pre rule mirror post) :
    Tracks w settings (fun r twin => fact ∧ pre r twin) rule mirror post :=
  fun r twin here => tracks here.1 r twin here.2

theorem whichever {ι : Type} {each : ι → Reader → Reader → Prop}
    (tracks : ∀ i, Tracks w settings (each i) rule mirror post) :
    Tracks w settings (fun r twin => ∃ i, each i r twin) rule mirror post :=
  fun r twin ⟨i, here⟩ => tracks i r twin here

theorem read {next nextMirror : α → Rule β} (first : Tracks w settings pre rule mirror (w.Reads image m))
    (second : ∀ value mirrored, image mirrored = image value →
      Tracks w settings (w.Loose m) (next value) (nextMirror mirrored) result) :
    Tracks w settings pre (rule >>= next) (mirror >>= nextMirror) result :=
  first.bind fun value mirrored => .assuming (second value mirrored)

theorem ite [Decidable p] [Decidable q] (same : p ↔ q) (yes : Tracks w settings pre rule mirror post)
    (no : Tracks w settings pre other otherMirror post) :
    Tracks w settings pre (if p then rule else other) (if q then mirror else otherMirror) post := by
  by_cases first : p
  · rw [if_pos first, if_pos (same.mp first)]
    exact yes
  · rw [if_neg first, if_neg fun second => first (same.mpr second)]
    exact no

theorem reject :
    Tracks w settings pre (Rule.reject c reason) (Rule.reject d reasonToo) post := fun _ _ _ => trivial

theorem fails : Tracks w settings pre (Rule.fails c) (Rule.fails d) post := fun _ _ _ => trivial

theorem failHere : Tracks w settings pre (Rule.failHere reason) (Rule.failHere reason) post :=
  fun _ _ _ => trivial

theorem orReject (tracks : Tracks w settings pre rule mirror post) :
    Tracks w settings pre (Rule.orReject rule c reason) (Rule.orReject mirror d reason) post := by
  intro r twin here
  have outcome := tracks r twin here
  simp only [Rule.orReject]
  generalize rule _ r = reply at outcome ⊢
  generalize mirror _ twin = mirrored at outcome ⊢
  cases reply <;> cases mirrored <;> exact outcome

theorem orRestore (tracks : Tracks w settings pre rule mirror post) :
    Tracks w settings pre (Rule.orRestore rule c) (Rule.orRestore mirror d) post := by
  intro r twin here
  have outcome := tracks r twin here
  simp only [Rule.orRestore]
  generalize rule _ r = reply at outcome ⊢
  generalize mirror _ twin = mirrored at outcome ⊢
  cases reply <;> cases mirrored <;> exact outcome

theorem orElse {grows growsToo : α → Scope → Scope → Prop} {spent spentToo : Position → Prop}
    (settles : Settles ⟨w.source, settings⟩ grows spent rule)
    (settlesToo : Settles ⟨w.other, settings⟩ growsToo spentToo mirror)
    (first : Tracks w settings (w.Level m) rule mirror post)
    (second : Tracks w settings (w.Level m) other otherMirror post) :
    Tracks w settings (w.Level m) (Rule.orElse rule other) (Rule.orElse mirror otherMirror) post := by
  intro r twin here
  rcases (first r twin here).outcomes with ⟨_, _, _, _, ran, ranToo, read⟩ | ⟨_, _, ran, ranToo⟩ | ran | ranToo
  · simp only [Rule.orElse, ran, ranToo]
    exact read
  · simp only [Rule.orElse, ran, ranToo]
    exact second _ _ (here.undone settles settlesToo ran ranToo)
  · simp only [Rule.orElse, ran]
    exact .exhausted
  · simp only [Rule.orElse, ranToo]
    exact .exhaustedToo

theorem optional {grows growsToo : α → Scope → Scope → Prop} {spent spentToo : Position → Prop}
    {next nextMirror : Option α → Rule β} (settles : Settles ⟨w.source, settings⟩ grows spent rule)
    (settlesToo : Settles ⟨w.other, settings⟩ growsToo spentToo mirror)
    (tracks : Tracks w settings (w.Level m) rule mirror post) (found : ∀ value mirrored,
      Tracks w settings (post value mirrored) (next (some value)) (nextMirror (some mirrored)) result)
    (missing : Tracks w settings (w.Level m) (next none) (nextMirror none) result) :
    Tracks w settings (w.Level m) (Rule.optional rule >>= next) (Rule.optional mirror >>= nextMirror) result := by
  intro r twin here
  rcases (tracks r twin here).outcomes with ⟨_, _, _, _, ran, ranToo, read⟩ | ⟨_, _, ran, ranToo⟩ | ran | ranToo
  · simp only [bind_apply, Rule.optional, ran, ranToo]
    exact found _ _ _ _ read
  · simp only [bind_apply, Rule.optional, ran, ranToo]
    exact missing _ _ (here.undone settles settlesToo ran ranToo)
  · simp only [bind_apply, Rule.optional, ran]
    exact .exhausted
  · simp only [bind_apply, Rule.optional, ranToo]
    exact .exhaustedToo

theorem neither (never : ∀ r twin, pre r twin → ∀ value after, rule ⟨w.source, settings⟩ r ≠ .ok value after)
    (neverToo : ∀ r twin, pre r twin → ∀ value after, mirror ⟨w.other, settings⟩ twin ≠ .ok value after) :
    Tracks w settings pre rule mirror post := by
  intro r twin here
  have first := never r twin here
  have second := neverToo r twin here
  cases ran : rule ⟨w.source, settings⟩ r with
  | ok value after => exact absurd ran (first value after)
  | exhausted => exact .exhausted
  | fail =>
    cases ranToo : mirror ⟨w.other, settings⟩ twin with
    | ok value after => exact absurd ranToo (second value after)
    | exhausted => exact .exhaustedToo
    | fail => trivial

theorem checkpoint {next nextMirror : Checkpoint → Rule α}
    (second : ∀ c d, w.Marks c d → Tracks w settings (w.Level m) (next c) (nextMirror d) post) :
    Tracks w settings (w.Level m) (Rule.checkpoint >>= next) (Rule.checkpoint >>= nextMirror) post :=
  fun r twin here => second r.checkpoint twin.checkpoint here.marks r twin here

theorem scope {next nextMirror : Scope → Rule α} [shows : ShowsScopes w pre]
    (second : ∀ s t, w.Scopes s t → Tracks w settings pre (next s) (nextMirror t) post) :
    Tracks w settings pre (Rule.scope >>= next) (Rule.scope >>= nextMirror) post :=
  fun r twin here => second r.scope twin.scope (shows.scopes r twin here) r twin here

theorem isOn {next nextMirror : Bool → Rule α}
    (second : ∀ answer, Tracks w settings pre (next answer) (nextMirror answer) post) :
    Tracks w settings pre (Rule.isOn feature >>= next) (Rule.isOn feature >>= nextMirror) post :=
  fun r twin here => second (settings.features feature) r twin here

theorem scaling {next nextMirror : Scaling → Rule α}
    (second : ∀ scaling, Tracks w settings pre (next scaling) (nextMirror scaling) post) :
    Tracks w settings pre (Rule.scaling >>= next) (Rule.scaling >>= nextMirror) post :=
  fun r twin here => second _ r twin here

theorem sourceSize {next nextMirror : Nat → Rule α}
    (second : ∀ size other, Tracks w settings pre (next size) (nextMirror other) post) :
    Tracks w settings pre (Rule.sourceSize >>= next) (Rule.sourceSize >>= nextMirror) post :=
  fun r twin here => second _ _ r twin here

theorem position {next nextMirror : Position → Rule α} (level : ∀ r twin, pre r twin → w.Level m r twin)
    (second : ∀ pos other, w.view other = w.view pos → Tracks w settings pre (next pos) (nextMirror other) post) :
    Tracks w settings pre (Rule.position >>= next) (Rule.position >>= nextMirror) post :=
  fun r twin here => second r.pos twin.pos (level r twin here).view_eq r twin here

theorem peek {next nextMirror : Nat → Rule α} (level : ∀ r twin, pre r twin → w.Level m r twin)
    (second : ∀ code mirrored, (∀ known, isVisible known = true → (code = known ↔ mirrored = known)) →
      Tracks w settings pre (next code) (nextMirror mirrored) post) :
    Tracks w settings pre (Rule.peek >>= next) (Rule.peek >>= nextMirror) post :=
  fun r twin here => second _ _ (level r twin here).joint.sees r twin here

theorem ahead {known : Nat} (visible : isVisible known = true) (yes : Tracks w settings (w.Level m) rule mirror post)
    (no : Tracks w settings (w.Level m) other otherMirror post) :
    Tracks w settings (w.Level m) (Rule.peek >>= fun code => if code = known then rule else other)
      (Rule.peek >>= fun code => if code = known then mirror else otherMirror) post :=
  .peek (fun _ _ => id) fun _ _ same => .ite (same _ visible) yes no

theorem update (changes : ∀ r twin, pre r twin → further (change r) (changeMirror twin))
    (second : Tracks w settings further (next ()) (nextMirror ()) post) :
    Tracks w settings pre (Rule.update change >>= next) (Rule.update changeMirror >>= nextMirror) post :=
  fun r twin here => second _ _ (changes r twin here)

theorem updateLast (changes : ∀ r twin, pre r twin → further (change r) (changeMirror twin)) :
    Tracks w settings pre (Rule.update change) (Rule.update changeMirror) fun _ _ => further := changes

theorem setScope (scopes : w.Scopes s t) (second : Tracks w settings (w.Loose m) (next ()) (nextMirror ()) post) :
    Tracks w settings (w.Loose m) (Rule.setScope s >>= next) (Rule.setScope t >>= nextMirror) post :=
  update (fun _ _ here => ⟨here.alike, scopes⟩) second

theorem warn (second : Tracks w settings (w.Loose m) (next ()) (nextMirror ()) post) :
    Tracks w settings (w.Loose m) (Rule.warn warning pos message >>= next)
      (Rule.warn warning posToo messageToo >>= nextMirror) post := by
  intro r twin here
  simp only [bind_apply, Rule.warn]
  by_cases wanted : settings.warnings warning = true
  · simp only [if_pos wanted]
    exact second _ _ (Loose.stable r twin _ _ here (Reader.remark_pos r _) (Reader.remark_scope r _)
      (Reader.remark_pos twin _) (Reader.remark_scope twin _))
  · simp only [if_neg wanted]
    exact second r twin here

theorem whenBuilt {next nextMirror : α → Rule β}
    (same : mirrored.map image = tree.map image) (second : ∀ value mirrored, image mirrored = image value →
      Tracks w settings pre (next value) (nextMirror mirrored) result) :
    Tracks w settings pre (Rule.built tree c >>= next) (Rule.built mirrored d >>= nextMirror) result := by
  cases tree <;> cases mirrored <;> try cases same
  · exact fun _ _ _ => trivial
  · exact second _ _ (Except.ok.inj same)

theorem built (same : mirrored.map image = tree.map image) :
    Tracks w settings pre (Rule.built tree c) (Rule.built mirrored d)
      fun value mirrored r twin => image mirrored = image value ∧ pre r twin := by
  cases tree <;> cases mirrored <;> try cases same
  · exact fun _ _ _ => trivial
  · exact fun r twin here => ⟨Except.ok.inj same, here⟩

theorem skip (second : Tracks w settings (w.Level m) (next ()) (nextMirror ()) post) :
    Tracks w settings (w.Loose m) (Rule.skip >>= next) (Rule.skip >>= nextMirror) post :=
  fun _ _ here => second _ _ here.skipped

theorem marked {next nextMirror : Checkpoint → Rule α}
    (second : ∀ c d, Tracks w settings (w.Marked m c d) (next c) (nextMirror d) post) :
    Tracks w settings (w.Loose m) (Rule.checkpoint >>= fun c => Rule.skip >>= fun _ => next c)
      (Rule.checkpoint >>= fun d => Rule.skip >>= fun _ => nextMirror d) post :=
  fun _ _ here => second _ _ _ _ here.marked

theorem restore (second : Tracks w settings (w.Loose m) (next ()) (nextMirror ()) post) :
    Tracks w settings (w.Marked m c d) (Rule.restore c >>= next) (Rule.restore d >>= nextMirror) post :=
  fun _ _ here => second _ _ (here.back (.refl _) rfl (.refl _) rfl)

section Signs

variable {codes : Nat → Bool} {character : Char} {n : Mood}

theorem test {next nextMirror : Bool → Rule α} (joint : ∀ r twin, pre r twin → w.Joint codes m r twin)
    (listed : codes character.toNat = true) (sign : isSign character.toNat = true)
    (moves : ∀ next, m.mark character.toNat next = n)
    (found : Tracks w settings (w.Joint (m.joins character.toNat) n) (next true) (nextMirror true) post)
    (missing : Tracks w settings pre (next false) (nextMirror false) post) :
    Tracks w settings pre (Rule.test character >>= next) (Rule.test character >>= nextMirror) post := by
  intro r twin here
  have both := (joint r twin here).sees _ listed
  change (next (r.test w.source character.toNat).1 _ (r.test w.source character.toNat).2).Tracks post
    (nextMirror (twin.test w.other character.toNat).1 _ (twin.test w.other character.toNat).2)
  by_cases ahead : r.peek w.source = character.toNat
  · have moved := (joint r twin here).advance listed sign ahead
    rw [moves] at moved
    simp only [Reader.test, if_pos ahead, if_pos (both.mp ahead)]
    exact found _ _ moved
  · simp only [Reader.test, if_neg ahead, if_neg fun aheadToo => ahead (both.mpr aheadToo)]
    exact missing r twin here

theorem chooseSign (n : Mood) (moves : ∀ next, m.mark character.toNat next = n) (sign : isSign character.toNat = true)
    (listed : codes character.toNat = true)
    (found : Tracks w settings (w.Joint (m.joins character.toNat) n) yes yesMirror post)
    (missing : Tracks w settings (w.Joint codes m) no noMirror post) :
    Tracks w settings (w.Joint codes m) (Rule.test character >>= fun next => if next = true then yes else no)
      (Rule.test character >>= fun next => if next = true then yesMirror else noMirror) post :=
  test (fun _ _ => id) listed sign moves found missing

theorem choose (n : Mood) (moves : m.after character.toNat = n) (plain : isPlain character.toNat = true)
    (found : Tracks w settings (w.Loose n) yes yesMirror post)
    (missing : Tracks w settings (w.Level m) no noMirror post) :
    Tracks w settings (w.Level m) (Rule.test character >>= fun next => if next = true then yes else no)
      (Rule.test character >>= fun next => if next = true then yesMirror else noMirror) post := by
  have sign := isSign_of_isPlain plain
  refine test (fun _ _ => Level.joint) (isVisible_of_isSign sign) sign (fun next => ?_)
    (found.of_pre fun _ _ joint => joint.toLoose) missing
  rw [mark_of_isPlain plain, moves]

theorem expectJoint (n : Mood) (moves : m.after character.toNat = n) (plain : isPlain character.toNat = true)
    (listed : codes character.toNat = true) (second : Tracks w settings (w.Loose n) (next ()) (nextMirror ()) post) :
    Tracks w settings (w.Joint codes m) (Rule.expect character c >>= next) (Rule.expect character d >>= nextMirror)
      post := by
  intro r twin here
  have both := here.sees _ listed
  have sign := isSign_of_isPlain plain
  simp only [bind_apply, Rule.expect, require, Reader.expect]
  by_cases ahead : r.peek w.source = character.toNat
  · have moved := here.advance listed sign ahead
    rw [mark_of_isPlain plain, moves] at moved
    simp only [if_pos ahead, if_pos (both.mp ahead)]
    exact second _ _ moved.toLoose
  · simp only [if_neg ahead, if_neg fun aheadToo => ahead (both.mpr aheadToo)]
    trivial

theorem expect (n : Mood) (moves : m.after character.toNat = n) (plain : isPlain character.toNat = true)
    (second : Tracks w settings (w.Loose n) (next ()) (nextMirror ()) post) :
    Tracks w settings (w.Level m) (Rule.expect character c >>= next) (Rule.expect character d >>= nextMirror) post := by
  have sign := isSign_of_isPlain plain
  exact (expectJoint n moves plain (isVisible_of_isSign sign) second).of_pre fun _ _ => Level.joint

end Signs

section Words

variable {l n : Last} {st : List Bracket}

theorem word {next nextMirror : Bytes → Rule α}
    (empty : Tracks w settings (w.Level ⟨l, st⟩) (next []) (nextMirror []) post)
    (nonempty : ∀ found mirrored, found ≠ [] → mirrored ≠ [] → lower mirrored = lower found →
      Tracks w settings (w.Joint (l.calls found) ⟨l.behind (lower found), st⟩) (next found) (nextMirror mirrored)
        post) :
    Tracks w settings (w.Level ⟨l, st⟩) (Rule.word >>= next) (Rule.word >>= nextMirror) post := by
  intro r twin here
  change (next (w.source.wordAt r.pos) _ { r with pos := w.source.afterWord r.pos }).Tracks post
    (nextMirror (w.other.wordAt twin.pos) _ { twin with pos := w.other.afterWord twin.pos })
  by_cases isWord : w.source.wordAt r.pos = []
  · have noneToo : w.other.wordAt twin.pos = [] := by
      obtain ⟨free, alike⟩ := here.alike
      rcases alike.word_cases here.shownToo with ⟨_, noneToo⟩ | ⟨isWordToo, _⟩
      · exact noneToo
      · exact absurd isWord isWordToo
    simp only [Source.afterWord, isWord, noneToo, List.length_nil, Nat.add_zero]
    exact empty r twin here
  · obtain ⟨isWordToo, lowered, further⟩ := here.word isWord
    exact nonempty _ _ isWord isWordToo lowered _ _ (further _ _ rfl rfl rfl rfl)

variable {text : Bytes}

theorem keyword (n : Last) (listed : Reader.keywords.contains text = true) (moves : l.behind (lower text) = n)
    (second : Tracks w settings (w.Loose ⟨n, st⟩) (next ()) (nextMirror ()) post) :
    Tracks w settings (w.Level ⟨l, st⟩) (Rule.keyword text c >>= next) (Rule.keyword text d >>= nextMirror) post := by
  intro r twin here
  subst moves
  rcases here.keyword listed c d settings with
    ⟨after, afterTwin, ran, ranToo, further⟩ | ⟨after, afterTwin, ran, ranToo⟩
  · simp only [bind_apply, ran, ranToo]
    exact second after afterTwin further
  · simp only [bind_apply, ran, ranToo]
    trivial

theorem keyword_asm :
    Tracks w settings (w.Level m) (Rule.keyword "__asm" c >>= next) (Rule.keyword "__asm" d >>= nextMirror) post := by
  intro r twin here
  have unspelled : w.source.wordAt r.pos ≠ "__asm" := by
    obtain ⟨free, alike⟩ := here.alike
    rcases alike.word_cases here.shownToo with ⟨none, _⟩ | ⟨_, plain, _⟩
    · rw [none]
      decide
    · exact plain
  have unspelledToo : w.other.wordAt twin.pos ≠ "__asm" := fun spelled =>
    unspelled ((here.spelled (by decide)).mpr spelled)
  obtain ⟨after, ran⟩ := (Reader.keyword_reads (by decide +kernel) c ⟨w.source, settings⟩ r).2 unspelled
  obtain ⟨afterTwin, ranToo⟩ := (Reader.keyword_reads (by decide +kernel) d ⟨w.other, settings⟩ twin).2 unspelledToo
  simp only [bind_apply, ran, ranToo]
  trivial

theorem undone_of_keyword (spelled : Reader.IsSpelled text) (ran : Rule.keyword text c env r = .fail after) :
    ∃ middle : Reader, middle.scope = r.scope ∧ env.source.Ahead r.pos middle.pos ∧ after = middle.restore c := by
  rcases keyword_cases c env r spelled with ⟨_, other, _⟩ | ⟨middle, back, kept, ahead⟩
  · rw [ran] at other
    cases other
  · rw [ran] at back
    cases back
    exact ⟨middle, kept, ahead, rfl⟩

theorem whetherSpelled {next nextMirror : Option Unit → Rule α} (n : Last)
    (listed : Reader.keywords.contains text = true) (moves : l.behind (lower text) = n)
    (found : Tracks w settings (w.Loose ⟨n, st⟩) (next (some ())) (nextMirror (some ())) post)
    (missing : Tracks w settings (w.Loose ⟨l, st⟩) (next none) (nextMirror none) post) :
    Tracks w settings (w.Marked ⟨l, st⟩ c d) (Rule.optional (Rule.keyword text c) >>= next)
      (Rule.optional (Rule.keyword text d) >>= nextMirror) post := by
  intro r twin here
  subst moves
  have spelled := (Reader.isKeyword_of_listed listed).2.1
  rcases here.keyword listed c d settings with
    ⟨after, afterTwin, ran, ranToo, further⟩ | ⟨after, afterTwin, ran, ranToo⟩
  · simp only [bind_apply, Rule.optional, ran, ranToo]
    exact found after afterTwin further
  · obtain ⟨middle, kept, ahead, rfl⟩ := undone_of_keyword spelled ran
    obtain ⟨middleTwin, keptToo, aheadToo, rfl⟩ := undone_of_keyword spelled ranToo
    simp only [bind_apply, Rule.optional, ran, ranToo]
    exact missing _ _ (here.back ahead kept aheadToo keptToo)

end Words

end Rule.Tracks

end Cb
