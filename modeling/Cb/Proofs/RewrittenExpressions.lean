import Cb.Proofs.RewrittenRuns

/-! Expressions of a source and of a rewritten one: each rule reads the same tree in both, but for positions. -/

namespace Cb.Rule

open Rewriting

variable {w : Rewriting} {settings : Settings} {l : Last} {st : List Bracket} {c d : Checkpoint}

theorem stars_tracks (n k : Nat) : Tracks w settings (w.Level ⟨.typed, st⟩) (stars n) (stars k)
    fun depth mirrored r twin => mirrored = depth ∧ w.Level ⟨.typed, st⟩ r twin := by
  induction n generalizing k with
  | zero => exact .exhausted
  | succ n ih =>
    cases k with
    | zero => exact .exhaustedToo
    | succ k =>
      refine .choose ⟨.typed, st⟩ rfl rfl (.skip ?_) (.pure fun r twin here => ⟨rfl, here⟩)
      refine (ih k).bind fun depth mirrored => .assuming fun same => .pure fun r twin here => ?_
      exact ⟨congrArg (· + 1) same, here⟩

theorem dataType_tracks : Tracks w settings (w.Level ⟨l, st⟩) dataType dataType
    fun ty mirrored r twin => mirrored = ty ∧ w.Level ⟨.typed, st⟩ r twin := by
  refine .checkpoint fun c d _ => .word .reject fun found mirrored isWord isWordToo lowered => ?_
  refine .ite (by simp [isWord, isWordToo]) .reject ?_
  refine .scope fun s t scopes => ?_
  have same : t.findType? mirrored = s.findType? found := by
    rw [scopes.findType?_eq, Scope.findType?, Scope.findType?, lowered]
  rw [same]
  cases named : s.findType? found with
  | none => exact .reject
  | some ty =>
    have behind : l.behind (lower found) = .typed := by
      have listed : ty ∈ Ty.builtins := scopes.types ▸ List.mem_of_find?_eq_some named
      have spelled : ty.base.name = lower found := by simpa using List.find?_some named
      rw [← spelled]
      simp only [Ty.builtins, List.mem_cons, List.not_mem_nil, or_false] at listed
      rcases listed with rfl | rfl | rfl <;> rfl
    rw [behind]
    refine .of_pre (fun _ _ joint => joint.toLoose) <| .skip <| .sourceSize fun size other => ?_
    refine (stars_tracks _ _).bind fun depth mirrored => .assuming fun same => .pure fun r twin here => ?_
    exact ⟨by rw [same], here⟩

theorem name_tracks (what : Bytes) : Tracks w settings (w.Level ⟨.typed, st⟩) (name c what) (name d what)
    fun found mirrored r twin => (mirrored = found ∧ isReserved found = false) ∧ w.Loose ⟨.declared, st⟩ r twin := by
  refine .word .reject fun found mirrored _ _ lowered => ?_
  rw [lowered]
  by_cases invalid : ((lower found).isEmpty || isReserved (lower found)) = true
  · simp only [if_pos invalid]
    exact .reject
  · simp only [if_neg invalid]
    have unreserved : isReserved (lower found) = false := by
      simp only [Bool.or_eq_true, not_or, Bool.not_eq_true] at invalid
      exact invalid.2
    rw [Last.behind_of_unreserved (by rwa [← Scopes.isReserved_lower])]
    exact .pure fun r twin here => ⟨⟨rfl, unreserved⟩, here.toLoose⟩

theorem null_tracks :
    Tracks w settings (w.Level ⟨.start, st⟩) null null (w.ReadsTree st) := by
  refine .checkpoint fun c d marks => .keyword .operand rfl rfl ?_
  refine .value ?_
  simp only [Build.null, Build.literal_relocated, marks.view]

theorem namedVariable_tracks : Tracks w settings (w.Level ⟨.start, st⟩) namedVariable namedVariable
    (w.ReadsTree st) := by
  refine .checkpoint fun c d marks => .word .reject fun found mirrored _ _ lowered => ?_
  dsimp only
  rw [lowered]
  refine .ite Iff.rfl .reject ?_
  refine .scope fun s t scopes => ?_
  rw [scopes.findVariable?_eq]
  cases named : s.findVariable? (lower found) with
  | none => exact .reject
  | some v =>
    have unreserved := scopes.unreserved_of_findVariable? named
    rw [Scopes.isReserved_lower] at unreserved
    rw [Last.behind_of_unreserved unreserved]
    refine .of_pre (fun _ _ joint => joint.toLoose) <| .marked fun afterName afterMirror => ?_
    refine .peek (fun _ _ marked => marked.toLevel) fun code mirrored same => .ite (same _ (by decide)) .reject ?_
    refine .restore <| .value ?_
    simp only [Build.var, Expr.relocated, Info.relocated, marks.view]

theorem sizeOf_tracks : Tracks w settings (w.Level ⟨.start, st⟩) sizeOf sizeOf
    (w.ReadsTree st) := by
  refine .checkpoint fun c d marks => .keyword .measure rfl rfl <| .skip ?_
  refine .expect ⟨.start, .size :: st⟩ rfl rfl <| .skip ?_
  -- behind a type or a variable, the parenthesis that closes is that of the word
  have closes (size mirrored : Nat) (same : mirrored = size) (l : Last) :
      Tracks w settings (w.Level ⟨l, .size :: st⟩) (do expect ')' c; return Build.literal c.pos size .int)
        (do expect ')' d; return Build.literal d.pos mirrored .int)
        (w.ReadsTree st) := by
    refine .expect ⟨.operand, st⟩ rfl rfl <| .value ?_
    simp only [Build.literal_relocated, marks.view, same]
  have typed : Tracks w settings (w.Level ⟨.start, .size :: st⟩) (do return (← dataType).size)
      (do return (← dataType).size)
      fun size mirrored r twin => mirrored = size ∧ ∃ l, w.Level ⟨l, .size :: st⟩ r twin := by
    refine dataType_tracks.bind fun ty mirrored => .assuming fun same => .pure fun r twin here => ?_
    exact ⟨by rw [same], _, here⟩
  refine .bind (.orElse dataType_settles.map dataType_settles.map typed ?_) fun size mirrored =>
    .assuming fun same => .whichever fun l => closes size mirrored same l
  refine .scope fun s t scopes => .word ?_ fun found mirrored _ _ lowered => ?_
  · rw [scopes.findVariable?_eq]
    split
    · exact .reject
    · exact .of_pre (fun _ _ level => level.toLoose) <| .skip <| .pure fun r twin here => ⟨rfl, _, here⟩
  · rw [scopes.findVariable?_eq, lowered]
    split
    · exact .reject
    · exact .of_pre (fun _ _ joint => joint.toLoose) <| .skip <| .pure fun r twin here => ⟨rfl, _, here⟩

def Finds (w : Rewriting) (st : List Bracket) (op mirrored : Option Operator) (r twin : Reader) : Prop :=
  mirrored = op ∧ (op.isSome = true → w.Loose ⟨.start, st⟩ r twin)

theorem operator_tracks : Tracks w settings (w.Level ⟨.operand, st⟩) operator operator
    (Finds w st) := by
  refine .checkpoint fun c d _ => .of_pre (fun _ _ => Level.joint) ?_
  have found {codes : Nat → Bool} (op : Operator) :
      Tracks w settings (w.Joint codes ⟨.start, st⟩) (Pure.pure (some op)) (Pure.pure (some op))
        (Finds w st) :=
    .pure fun r twin here => ⟨rfl, fun _ => here.toLoose⟩
  have missing {pre : Reader → Reader → Prop} : Tracks w settings pre (operator.none? c) (operator.none? d)
      (Finds w st) :=
    fun _ _ _ => ⟨rfl, nofun⟩
  have single {character : Char} {op : Operator} {no noMirror : Rule (Option Operator)}
      (moves : ∀ next, (⟨.operand, st⟩ : Mood).mark character.toNat next = ⟨.start, st⟩)
      (sign : isSign character.toNat = true)
      (otherwise : Tracks w settings (w.Joint isVisible ⟨.operand, st⟩) no noMirror (Finds w st)) :
      Tracks w settings (w.Joint isVisible ⟨.operand, st⟩)
        (test character >>= fun next => if next = true then return some op else no)
        (test character >>= fun next => if next = true then return some op else noMirror) (Finds w st) :=
    .chooseSign ⟨.start, st⟩ moves sign (isVisible_of_isSign sign) (found op) otherwise
  refine single (fun _ => rfl) rfl <| single (fun _ => rfl) rfl <| single (fun _ => rfl) rfl <|
    single (fun _ => rfl) rfl <| single (fun _ => rfl) rfl ?_
  refine .chooseSign ⟨.start, st⟩ (fun _ => rfl) rfl rfl ?_ ?_
  · exact .chooseSign ⟨.start, st⟩ (fun _ => rfl) rfl rfl (found _) <| .chooseSign ⟨.start, st⟩ (fun _ => rfl) rfl rfl (found _) (found _)
  refine .chooseSign ⟨.start, st⟩ (fun _ => rfl) rfl rfl ?_ ?_
  · exact .chooseSign ⟨.start, st⟩ (fun _ => rfl) rfl rfl (found _) <| .chooseSign ⟨.start, st⟩ (fun _ => rfl) rfl rfl (found _) (found _)
  refine .chooseSign ⟨.start, st⟩ (fun _ => rfl) rfl rfl ?_ ?_
  · exact .chooseSign ⟨.start, st⟩ (fun _ => rfl) rfl rfl (found _) (found _)
  refine .chooseSign ⟨.start, st⟩ (fun _ => rfl) rfl rfl ?_ ?_
  · exact .chooseSign ⟨.start, st⟩ (fun _ => rfl) rfl rfl (found _) missing
  exact single (fun _ => rfl) rfl <| single (fun _ => rfl) rfl <| single (fun _ => rfl) rfl missing

theorem Tracks.operator {α : Type} {next nextMirror : Option Operator → Rule α} {post : α → α → Reader → Reader → Prop}
    (level : ∀ r twin, pre r twin → w.Level ⟨.operand, st⟩ r twin) (stable : IsStable pre)
    (found : ∀ op, Tracks w settings (w.Loose ⟨.start, st⟩) (next (some op)) (nextMirror (some op)) post)
    (missing : Tracks w settings pre (next none) (nextMirror none) post) :
    Tracks w settings pre (Rule.operator >>= next) (Rule.operator >>= nextMirror) post := by
  intro r twin here
  have outcome := (operator_tracks : Tracks w settings _ _ _ _) r twin (level r twin here)
  obtain ⟨op, after, ran, kept, moved⟩ := operator_picks ⟨w.source, settings⟩ r
  obtain ⟨mirrored, afterTwin, ranToo, keptToo, movedToo⟩ := operator_picks ⟨w.other, settings⟩ twin
  rw [ran, ranToo] at outcome
  obtain ⟨rfl, further⟩ := outcome
  simp only [bind_apply, ran, ranToo]
  cases mirrored with
  | some op => exact found op _ _ (further rfl)
  | none => exact missing _ _ (stable r twin _ _ here moved kept movedToo keptToo)

section Numbers

def isNumeral (code : Nat) : Bool := isDigit code || code = '\''.toNat

variable {α : Type} {post : α → α → Reader → Reader → Prop} {code : Nat}

theorem isVisible_of_isNumeral (numeral : isNumeral code = true) : isVisible code = true := by
  simp only [isNumeral, Bool.or_eq_true, decide_eq_true_eq] at numeral
  rcases numeral with digit | rfl
  · exact isVisible_of_isDigit digit
  · decide

theorem isSign_of_isDigit (digit : isDigit code = true) : isSign code = true := by
  simp only [isDigit, Bool.and_eq_true, decide_eq_true_eq] at digit
  have few : ∀ code < 58, 48 ≤ code → isSign code = true := by decide
  exact few code (by omega) digit.1

theorem mark_of_isDigit (digit : isDigit code = true) (m : Mood) (next : Nat) :
    m.mark code next = { m with last := .operand } := by
  have differs (other : Nat) (isNone : isDigit other = false) : code ≠ other := by
    rintro rfl
    rw [digit] at isNone
    cases isNone
  have plain : isPlain code = true := by
    simp only [isPlain, isSign_of_isDigit digit, Bool.true_and, Bool.and_eq_true, bne_iff_ne]
    exact ⟨differs _ (by decide), differs _ (by decide)⟩
  rw [mark_of_isPlain plain, Mood.after, if_neg (differs _ (by decide)), if_neg (differs _ (by decide)),
    decide_eq_false (differs '*'.toNat (by decide)), Bool.false_and, if_neg Bool.false_ne_true, digit, Bool.or_true,
    if_pos rfl]

def inside? (source : Source) (pos : Position) : Option Nat :=
  if source.charAt (source.next pos) = '\\'.toNat then escaped? (source.charAt (source.lastInside pos))
  else some (source.charAt (source.next pos))

theorem character_eq (c : Checkpoint) (env : Env) (inside : r.pos = env.source.next p) :
    ∃ middle : Reader, middle.pos = env.source.next (env.source.lastInside p) ∧ middle.scope = r.scope ∧
      character c env r = (match inside? env.source p with
        | some value => (do expect '\'' c; return value)
        | none => reject c (.unknownEscape (env.source.charAt (env.source.lastInside p))) : Rule Nat) env middle := by
  have code : r.peek env.source = env.source.charAt (env.source.next p) := peek_congr inside
  have second : (r.advance env.source).pos = env.source.next (env.source.next p) := by rw [Reader.advance_pos, inside]
  have kept := Reader.advance_scope env.source r
  rw [inside?, Source.lastInside]
  by_cases escape : env.source.charAt (env.source.next p) = '\\'.toNat
  · have value : (r.advance env.source).peek env.source = env.source.charAt (env.source.next (env.source.next p)) :=
      peek_congr second
    simp only [if_pos escape]
    refine ⟨(r.advance env.source).advance env.source, ?_, (Reader.advance_scope _ _).trans kept, ?_⟩
    · rw [Reader.advance_pos, second]
    · change (if r.peek env.source = '\\'.toNat then _ else _ : Rule Nat) env (r.advance env.source) = _
      rw [code, if_pos escape]
      change Rule.bind advance _ env (r.advance env.source) = _
      simp only [Rule.bind, advance, value]
      cases escaped? (env.source.charAt (env.source.next (env.source.next p))) <;> rfl
  · simp only [if_neg escape]
    refine ⟨r.advance env.source, second, kept, ?_⟩
    change (if r.peek env.source = '\\'.toNat then _ else _ : Rule Nat) env (r.advance env.source) = _
    rw [code, if_neg escape, ← code]
    rfl

theorem Tracks.minus
    (second : ∀ negative, Tracks w settings (fun r twin => ∃ l, w.Joint isNumeral ⟨l, st⟩ r twin) (next negative)
      (nextMirror negative) post) :
    Tracks w settings (w.Level ⟨.start, st⟩) (Rule.test '-' >>= next) (Rule.test '-' >>= nextMirror) post := by
  intro r twin here
  have both := here.joint.sees '-'.toNat (by decide)
  change (next (r.test w.source '-'.toNat).1 _ (r.test w.source '-'.toNat).2).Tracks post
    (nextMirror (twin.test w.other '-'.toNat).1 _ (twin.test w.other '-'.toNat).2)
  by_cases ahead : r.peek w.source = '-'.toNat
  · have moved := here.joint.advance (by decide) (by decide) ahead
    have mood (next : Nat) : ∃ l, (⟨.start, st⟩ : Mood).mark '-'.toNat next = ⟨l, st⟩ := by
      by_cases double : next = '-'.toNat
      · subst double
        exact ⟨.sign, rfl⟩
      · have single : (⟨.start, st⟩ : Mood).doubles '-'.toNat next = false := by
          rw [Mood.doubles, decide_eq_false double, Bool.and_false]
        refine ⟨.start, ?_⟩
        rw [Mood.mark, single]
        rfl
    obtain ⟨l, mood⟩ := mood ((r.advance w.source).peek w.source)
    rw [mood] at moved
    simp only [Reader.test, if_pos ahead, if_pos (both.mp ahead)]
    refine second true _ _ ⟨l, moved.imp fun code numeral => ?_⟩
    rw [Mood.joins, Bool.or_eq_true]
    exact .inr numeral
  · simp only [Reader.test, if_neg ahead, if_neg fun aheadToo => ahead (both.mpr aheadToo)]
    exact second false _ _ ⟨.start, here.joint.imp fun _ => isVisible_of_isNumeral⟩

def Quoted (w : Rewriting) (st : List Bracket) (r twin : Reader) : Prop :=
  ∃ l free p q, w.Alike ⟨l, st⟩ free p q ∧ w.source.charAt p = '\''.toNat ∧ w.other.charAt q = '\''.toNat ∧
    r.pos = w.source.next p ∧ twin.pos = w.other.next q ∧ w.Scopes r.scope twin.scope

theorem character_tracks : Tracks w settings (Quoted w st) (character c) (character d)
    fun value mirrored r twin => mirrored = value ∧ w.Loose ⟨.operand, st⟩ r twin := by
  rintro r twin ⟨l, free, p, q, alike, quoted, quotedToo, inside, insideToo, scopes⟩
  obtain ⟨middle, pos, scope, ran⟩ := character_eq c ⟨w.source, settings⟩ inside
  obtain ⟨middleTwin, posToo, scopeToo, ranToo⟩ := character_eq d ⟨w.other, settings⟩ insideToo
  have ahead : middle.peek w.source = w.source.charAt (w.source.next (w.source.lastInside p)) := peek_congr pos
  have aheadToo : middleTwin.peek w.other = w.other.charAt (w.other.next (w.other.lastInside q)) := peek_congr posToo
  have closing (value : Nat) (c : Checkpoint) (env : Env) (r : Reader) :
      (do expect '\'' c; return value : Rule Nat) env r = if r.peek env.source = '\''.toNat then
        .ok value (r.advance env.source) else .fail (r.reject c (.expected '\''.toNat (r.peek env.source))) := by
    by_cases closed : r.peek env.source = '\''.toNat
    · simp only [bind_apply, expect, require, Reader.expect, if_pos closed]
      rfl
    · simp only [bind_apply, expect, require, Reader.expect, if_neg closed]
  rw [ran, ranToo]
  rcases alike.quote_cases quoted quotedToo with ⟨isOpen, isOpenToo⟩ | ⟨same, sameLast, closed, closedToo, rest⟩
  · simp only [Source.closes, decide_eq_false_iff_not] at isOpen isOpenToo
    rw [← ahead] at isOpen
    rw [← aheadToo] at isOpenToo
    cases inside? w.source p <;> cases inside? w.other q <;>
      simp only [closing, if_neg isOpen, if_neg isOpenToo] <;> trivial
  · simp only [Source.closes, decide_eq_true_eq] at closed closedToo
    rw [← ahead] at closed
    rw [← aheadToo] at closedToo
    have sameValue : inside? w.other q = inside? w.source p := by rw [inside?, inside?, same, sameLast]
    rw [sameValue]
    cases inside? w.source p with
    | none => trivial
    | some value =>
      simp only [closing, if_pos closed, if_pos closedToo]
      refine ⟨rfl, ⟨true, ?_⟩, ?_⟩
      · rw [Reader.advance_pos, Reader.advance_pos, pos, posToo]
        exact rest
      · rw [Reader.advance_scope, Reader.advance_scope, scope, scopeToo]
        exact scopes

theorem Tracks.quoted (found : ∀ value, Tracks w settings (w.Loose ⟨.operand, st⟩) (next value) (nextMirror value) post)
    (missing : Tracks w settings (w.Joint isNumeral ⟨l, st⟩) no noMirror post) :
    Tracks w settings (w.Joint isNumeral ⟨l, st⟩)
      (Rule.test '\'' >>= fun quote => if quote = true then character c >>= next else no)
      (Rule.test '\'' >>= fun quote => if quote = true then character d >>= nextMirror else noMirror) post := by
  intro r twin here
  have both := here.sees '\''.toNat (by decide)
  change
    ((if (r.test w.source '\''.toNat).1 = true then _ else _ : Rule α) _ (r.test w.source '\''.toNat).2).Tracks post
    ((if (twin.test w.other '\''.toNat).1 = true then _ else _ : Rule α) _ (twin.test w.other '\''.toNat).2)
  by_cases ahead : r.peek w.source = '\''.toNat
  · simp only [Reader.test, if_pos ahead, if_pos (both.mp ahead), if_true]
    have inside : Quoted w st (r.advance w.source) (twin.advance w.other) := by
      obtain ⟨free, alike⟩ := here.alike
      refine ⟨l, free, r.pos, twin.pos, alike, ahead, both.mp ahead, Reader.advance_pos r, Reader.advance_pos twin, ?_⟩
      rw [Reader.advance_scope, Reader.advance_scope]
      exact here.scopes
    have read : Tracks w settings (Quoted w st) (character c >>= next) (character d >>= nextMirror) post := by
      refine character_tracks.bind fun value mirrored => .assuming fun same => ?_
      rw [same]
      exact found value
    exact read _ _ inside
  · have aheadToo := fun aheadToo => ahead (both.mpr aheadToo)
    simp only [Reader.test, if_neg ahead, if_neg aheadToo, Bool.false_eq_true, if_false]
    exact missing r twin here

def Numbered (w : Rewriting) (st : List Bracket) (r twin : Reader) : Prop :=
  ∃ l, w.Joint isDigit ⟨l, st⟩ r twin ∧ (isDigit (r.peek w.source) = true ∨ l = .operand)

theorem Tracks.digit?
    (found : ∀ digit, Tracks w settings (Numbered w st) (next (some digit)) (nextMirror (some digit)) post)
    (missing : Tracks w settings (w.Loose ⟨.operand, st⟩) (next none) (nextMirror none) post) :
    Tracks w settings (Numbered w st) (Rule.digit? >>= next) (Rule.digit? >>= nextMirror) post := by
  rintro r twin ⟨l, joint, starts⟩
  simp only [bind_apply, digit?_apply]
  by_cases digit : isDigit (r.peek w.source) = true
  · have same := (joint.sees _ digit).mp rfl
    have moved := joint.advance digit (isSign_of_isDigit digit) rfl
    rw [mark_of_isDigit digit] at moved
    simp only [same, if_pos digit]
    refine found _ _ _ ⟨.operand, moved.imp fun code further => ?_, Or.inr rfl⟩
    simp only [Mood.joins, digit, further, Bool.and_self, Bool.true_or]
  · have digitToo : ¬isDigit (twin.peek w.other) = true := by
      intro digitToo
      have same := (joint.sees _ digitToo).mpr rfl
      exact digit (same ▸ digitToo)
    simp only [if_neg digit, if_neg digitToo]
    rcases starts with starts | rfl
    · exact absurd starts digit
    · exact missing r twin joint.toLoose

theorem digits_tracks (room : Nat) (number : Int) :
    Tracks w settings (Numbered w st) (digits c room number) (digits d room number)
      fun value mirrored r twin => mirrored = value ∧ w.Loose ⟨.operand, st⟩ r twin := by
  induction room generalizing number with
  | zero => exact .digit? (fun _ => .reject) (.value rfl)
  | succ room ih => exact .digit? (fun digit => ih _) (.value rfl)

theorem Tracks.numbered (found : Tracks w settings (Numbered w st) yes yesMirror post)
    (missing : Tracks w settings (w.Joint isNumeral ⟨l, st⟩) no noMirror post) :
    Tracks w settings (w.Joint isNumeral ⟨l, st⟩) (Rule.peek >>= fun code => if isDigit code = true then yes else no)
      (Rule.peek >>= fun code => if isDigit code = true then yesMirror else noMirror) post := by
  intro r twin here
  have digits : w.Joint isDigit ⟨l, st⟩ r twin := here.imp fun code digit => by rw [isNumeral, digit, Bool.true_or]
  change ((if isDigit (r.peek w.source) = true then yes else no) _ r).Tracks post
    ((if isDigit (twin.peek w.other) = true then yesMirror else noMirror) _ twin)
  by_cases digit : isDigit (r.peek w.source) = true
  · have same := (digits.sees _ digit).mp rfl
    rw [same, if_pos digit, if_pos digit]
    exact found r twin ⟨l, digits, Or.inl digit⟩
  · have digitToo : ¬isDigit (twin.peek w.other) = true :=
      fun digitToo => digit ((digits.sees _ digitToo).mpr rfl ▸ digitToo)
    rw [if_neg digit, if_neg digitToo]
    exact missing r twin here

theorem literal_tracks : Tracks w settings (w.Level ⟨.start, st⟩) literal literal
    (w.ReadsTree st) := by
  refine .checkpoint fun c d marks => .minus fun negative => .whichever fun l => .quoted (fun code => ?_) ?_
  · refine .value ?_
    rw [Build.number_relocated, Build.number_relocated, marks.view]
  · refine .numbered ((digits_tracks 6 0).bind fun magnitude mirrored => .assuming fun same => ?_) .reject
    rw [same]
    refine .ite Iff.rfl .reject <| .value ?_
    rw [Build.number_relocated, Build.number_relocated, marks.view]

end Numbers

section DoubledSigns

theorem testText_two (source : Source) (codes : codePoints text = [code, code]) (r : Reader) :
    (r.peek source = code → (r.advance source).peek source = code →
      Reader.testText source text r = (true, (r.advance source).advance source)) ∧
    (¬(r.peek source = code ∧ (r.advance source).peek source = code) → (Reader.testText source text r).1 = false) := by
  simp only [Reader.testText, codes, Reader.testCodes, Reader.test]
  constructor
  · intro first second
    simp only [if_pos first, if_pos second]
  · intro missing
    by_cases first : r.peek source = code
    · have second : ¬(r.advance source).peek source = code := fun second => missing ⟨first, second⟩
      simp only [if_pos first, if_neg second]
    · simp only [if_neg first]

theorem Tracks.chooseText {α : Type} {post : α → α → Reader → Reader → Prop} {yes yesMirror no noMirror : Rule α}
    {code : Nat} (codes : codePoints text = [code, code]) (isEither : code = '+'.toNat ∨ code = '-'.toNat)
    (found : Tracks w settings (w.Loose ⟨.start, st⟩) yes yesMirror post)
    (missing : Tracks w settings (w.Level ⟨.start, st⟩) no noMirror post) :
    Tracks w settings (w.Level ⟨.start, st⟩) (Rule.testText text >>= fun next => if next = true then yes else no)
      (Rule.testText text >>= fun next => if next = true then yesMirror else noMirror) post := by
  intro r twin here
  have sign : isSign code = true := by rcases isEither with rfl | rfl <;> decide
  have together : (⟨.start, st⟩ : Mood).joins code code = true := by rcases isEither with rfl | rfl <;> rfl
  have first : (⟨.start, st⟩ : Mood).mark code code = ⟨.sign, st⟩ := by rcases isEither with rfl | rfl <;> rfl
  have second (next : Nat) : (⟨.sign, st⟩ : Mood).mark code next = ⟨.start, st⟩ := by
    rcases isEither with rfl | rfl <;> rfl
  have reads := testText_two w.source codes r
  have readsToo := testText_two w.other codes twin
  have both := here.joint.sees code (isVisible_of_isSign sign)
  have bothNext (ahead : r.peek w.source = code) :
      (r.advance w.source).peek w.source = code ↔ (twin.advance w.other).peek w.other = code :=
    (here.joint.advance (isVisible_of_isSign sign) sign ahead).sees code together
  change ((if (Reader.testText w.source text r).1 = true then yes else no) _ (Reader.testText w.source text r).2).Tracks
    post ((if (Reader.testText w.other text twin).1 = true then yesMirror else noMirror) _
      (Reader.testText w.other text twin).2)
  by_cases doubled : r.peek w.source = code ∧ (r.advance w.source).peek w.source = code
  · obtain ⟨ahead, aheadNext⟩ := doubled
    rw [reads.1 ahead aheadNext, readsToo.1 (both.mp ahead) ((bothNext ahead).mp aheadNext), if_pos rfl, if_pos rfl]
    have moved := here.joint.advance (isVisible_of_isSign sign) sign ahead
    rw [aheadNext, first] at moved
    have movedTwice := moved.advance together sign aheadNext
    rw [second] at movedTwice
    exact found _ _ movedTwice.toLoose
  · have doubledToo : ¬(twin.peek w.other = code ∧ (twin.advance w.other).peek w.other = code) := by
      rintro ⟨aheadToo, aheadNextToo⟩
      have ahead := both.mpr aheadToo
      exact doubled ⟨ahead, (bothNext ahead).mpr aheadNextToo⟩
    have stays := reads.2 doubled
    have staysToo := readsToo.2 doubledToo
    rw [stays, staysToo, if_neg Bool.false_ne_true, if_neg Bool.false_ne_true]
    exact missing _ _ (Level.stable r twin _ _ here (Reader.testText_pos stays) (Reader.testText_scope _ _ r)
      (Reader.testText_pos staysToo) (Reader.testText_scope _ _ twin))

end DoubledSigns

def ReadsOperand (w : Rewriting) (settings : Settings) (rule mirror : Rule Expr) : Prop :=
  ∀ st, Tracks w settings (w.Level ⟨.start, st⟩) rule mirror (w.ReadsTree st)

structure ExpressionsTrack (w : Rewriting) (settings : Settings) (n k : Nat) : Prop where
  expression : ReadsOperand w settings (expression n) (expression k)
  operations : ∀ st c d pending pendingToo values valuesToo,
    pendingToo.map (Pending.relocated w.view) = pending.map (Pending.relocated w.view) →
    valuesToo.map (Expr.relocated w.view) = values.map (Expr.relocated w.view) →
    Tracks w settings (w.Loose ⟨.operand, st⟩) (operations n c pending values) (operations k d pendingToo valuesToo)
      (w.ReadsTree st)
  operand : ReadsOperand w settings (operand n) (operand k)
  paren : ReadsOperand w settings (paren n) (paren k)
  value : ReadsOperand w settings (value n) (value k)
  increment : ReadsOperand w settings (increment n) (increment k)
  step : ∀ st c d down, w.view d.pos = w.view c.pos →
    Tracks w settings (w.Loose ⟨.start, st⟩) (step n c down) (step k d down)
      (w.ReadsTree st)
  cast : ReadsOperand w settings (cast n) (cast k)
  call : ReadsOperand w settings (call n) (call k)
  arguments : ∀ st c d, Tracks w settings (w.Loose ⟨.start, .group :: st⟩) (arguments n c) (arguments k d)
    (w.Reads (List.map (Expr.relocated w.view)) ⟨.operand, st⟩)
  arrayAccess : ReadsOperand w settings (arrayAccess n) (arrayAccess k)
  deref : ReadsOperand w settings (deref n) (deref k)
  reference : ReadsOperand w settings (reference n) (reference k)

variable {n k : Nat} (reads : ExpressionsTrack w settings n k)

include reads

theorem expression_tracks : ReadsOperand w settings (expression (n + 1)) (expression (k + 1)) := by
  intro st
  refine .checkpoint fun c d _ => (reads.operand st).orReject.read fun first mirrored same => ?_
  exact reads.operations st c d [] [] [first] [mirrored] rfl (congrArg (fun e => [e]) same)

theorem operations_tracks (st : List Bracket) (c d : Checkpoint) (pending pendingToo : List Pending)
    (values valuesToo : List Expr)
    (samePending : pendingToo.map (Pending.relocated w.view) = pending.map (Pending.relocated w.view))
    (sameValues : valuesToo.map (Expr.relocated w.view) = values.map (Expr.relocated w.view)) :
    Tracks w settings (w.Loose ⟨.operand, st⟩) (operations (n + 1) c pending values)
      (operations (k + 1) d pendingToo valuesToo) (w.ReadsTree st) := by
  have applied (scaling : Scaling) (incoming : Option Operator) :
      (applyPending scaling incoming pendingToo valuesToo).map (fun both =>
        (both.1.map (Pending.relocated w.view), both.2.map (Expr.relocated w.view))) =
      (applyPending scaling incoming pending values).map fun both =>
        (both.1.map (Pending.relocated w.view), both.2.map (Expr.relocated w.view)) := by
    rw [← applyPending_relocated, ← applyPending_relocated, samePending, sameValues]
  refine .marked fun mark mirror => .position (fun _ _ marked => marked.toLevel) fun pos posToo samePos => ?_
  refine .operator (fun _ _ marked => marked.toLevel) Marked.stable (fun op => ?_) ?_
  · refine .scaling fun scaling => .whenBuilt (applied scaling (some op)) fun both bothToo same => .skip ?_
    obtain ⟨samePending, sameValues⟩ := Prod.mk.inj same
    refine (reads.operand st).orReject.read fun next nextToo sameNext => ?_
    refine reads.operations st c d _ _ _ _ ?_ ?_
    · simp only [List.map_cons, samePending, Pending.relocated, samePos]
    · simp only [List.map_cons, sameValues, sameNext]
  · refine .scaling fun scaling => .whenBuilt (applied scaling none) fun both bothToo same => .restore ?_
    obtain ⟨_, sameValues⟩ := Prod.mk.inj same
    rcases both with ⟨_, _ | ⟨e, others⟩⟩ <;> rcases bothToo with ⟨_, _ | ⟨mirrored, othersToo⟩⟩
    · exact .fails
    · cases sameValues
    · cases sameValues
    · exact .pure fun r twin here => ⟨(List.cons.inj sameValues).1, here⟩

theorem operand_tracks : ReadsOperand w settings (operand (n + 1)) (operand (k + 1)) := by
  intro st
  refine .orElse (expressionsSettle _ n).cast (expressionsSettle _ k).cast (reads.cast st) ?_
  exact .ahead rfl (reads.paren st) (reads.value st)

theorem paren_tracks : ReadsOperand w settings (paren (n + 1)) (paren (k + 1)) := by
  intro st
  refine .checkpoint fun c d _ => .expect ⟨.start, .group :: st⟩ rfl rfl <| .skip ?_
  refine (reads.expression (.group :: st)).orReject.read fun e mirrored same => .skip ?_
  exact .expect ⟨.operand, st⟩ rfl rfl <| .value same

theorem value_tracks : ReadsOperand w settings (value (n + 1)) (value (k + 1)) := by
  intro st
  have settle := expressionsSettle ⟨w.source, settings⟩ n
  have settleToo := expressionsSettle ⟨w.other, settings⟩ k
  exact .orElse null_settles null_settles null_tracks <|
    .orElse settle.increment settleToo.increment (reads.increment st) <|
    .orElse settle.cast settleToo.cast (reads.cast st) <|
    .orElse sizeOf_settles sizeOf_settles sizeOf_tracks <|
    .orElse settle.call settleToo.call (reads.call st) <|
    .orElse settle.arrayAccess settleToo.arrayAccess (reads.arrayAccess st) <|
    .orElse namedVariable_settles namedVariable_settles namedVariable_tracks <|
    .orElse literal_settles literal_settles literal_tracks <|
    .orElse settle.deref settleToo.deref (reads.deref st) <|
    .orElse settle.reference settleToo.reference (reads.reference st) .failHere

theorem increment_tracks : ReadsOperand w settings (increment (n + 1)) (increment (k + 1)) := by
  intro st
  refine .checkpoint fun c d marks => .chooseText (by decide) (Or.inl rfl) (reads.step st c d false marks.view) ?_
  exact .chooseText (by decide) (Or.inr rfl) (reads.step st c d true marks.view) .fails

theorem step_tracks (st : List Bracket) (c d : Checkpoint) (down : Bool) (samePos : w.view d.pos = w.view c.pos) :
    Tracks w settings (w.Loose ⟨.start, st⟩) (step (n + 1) c down) (step (k + 1) d down)
      (w.ReadsTree st) := by
  refine .skip <| (reads.value st).orReject.read fun target mirrored same => .built ?_
  rw [← Expr.relocated_keeps.step, ← Expr.relocated_keeps.step, same, samePos]

theorem cast_tracks : ReadsOperand w settings (cast (n + 1)) (cast (k + 1)) := by
  intro st
  refine .checkpoint fun c d marks => .expect ⟨.start, .group :: st⟩ rfl rfl <| .skip ?_
  refine dataType_tracks.orRestore.bind fun target mirrored => .assuming fun sameTarget => ?_
  rw [sameTarget]
  refine .expect ⟨.start, st⟩ rfl rfl <| .skip ?_
  have operand : Tracks w settings (w.Level ⟨.start, st⟩) (do if (← peek) = '('.toNat then paren n else value n)
      (do if (← peek) = '('.toNat then paren k else value k) (w.ReadsTree st) :=
    .ahead rfl (reads.paren st) (reads.value st)
  refine operand.orReject.read fun inner innerToo same => ?_
  have built : (Build.cast innerToo target).map (Expr.relocated w.view) =
      (Build.cast inner target).map (Expr.relocated w.view) := by
    rw [← Expr.relocated_keeps.cast, ← Expr.relocated_keeps.cast, same]
  refine .whenBuilt built fun e mirrored sameTree => .ite ?_ ?_ (.pure fun r twin here => ⟨sameTree, here⟩)
  · obtain ⟨_, _, isConstant, value⟩ := Expr.relocated_keeps.alike same
    rw [isConstant, value, (Expr.relocated_keeps.alike sameTree).2.2.2]
  · exact .warn <| .pure fun r twin here => ⟨sameTree, here⟩

omit reads in
theorem call_unknown {name : Bytes} (unknown : s.findFunction? name = none) :
    Passes env s p (do
      if name.isEmpty then reject c (.invalid "function name") else
      expect '(' c
      skip
      let arguments ← if ← test ')' then pure [] else arguments n c
      callNamed c name arguments) fun _ _ _ => False := by
  have finished (p : Position) (given : List Expr) : Passes env s p (callNamed c name given) fun _ _ _ => False := by
    refine .scope ?_
    rw [unknown]
    exact .reject
  have kept : ∀ p, Passes env s p skip fun _ t _ => t = s := by
    rintro p r after value rfl _ ran
    cases ran
    exact Reader.skipUpTo_scope _ _ r
  have passed : ∀ p, Passes env s p (arguments n c) fun _ t _ => t = s := by
    rintro p r after value rfl _ ran
    exact (((expressionsSettle env n).arguments c).of_ok ran).1
  split
  · exact .reject
  · refine .expect fun _ => (kept _).bind fun _ t q same => ?_
    subst same
    refine .choose (fun _ => finished _ []) ((passed q).bind fun given t q same => ?_)
    subst same
    exact finished q given

theorem call_tracks : ReadsOperand w settings (call (n + 1)) (call (k + 1)) := by
  intro st
  refine .checkpoint fun c d marks => .word .reject fun found mirrored isWord isWordToo lowered => ?_
  have finished (given givenToo : List Expr)
      (same : givenToo.map (Expr.relocated w.view) = given.map (Expr.relocated w.view)) :
      Tracks w settings (w.Loose ⟨.operand, st⟩) (callNamed c (lower found) given)
        (callNamed d (lower found) givenToo) (w.ReadsTree st) := by
    refine .scope fun s t scopes => ?_
    have sameCallee := scopes.findFunction?_eq (lower found)
    match callee : s.findFunction? (lower found), calleeToo : t.findFunction? (lower found) with
    | none, none => exact .reject
    | some f, some g =>
      rw [callee, calleeToo] at sameCallee
      have related : g.relocated w.view = f.relocated w.view := Option.some.inj sameCallee
      have signature : g.toSignature = f.toSignature :=
        (congrArg Function.toSignature related : (g.relocated w.view).toSignature = _)
      refine .built ?_
      rw [← Expr.relocated_keeps.call, ← Expr.relocated_keeps.call, same, signature, marks.view]
    | none, some _ => rw [callee, calleeToo] at sameCallee; cases sameCallee
    | some _, none => rw [callee, calleeToo] at sameCallee; cases sameCallee
  dsimp only
  rw [lowered]
  by_cases reserved : isReserved found = true
  · have unknown {r twin : Reader} {codes : Nat → Bool} {m : Mood} (here : w.Joint codes m r twin) :
        r.scope.findFunction? (lower found) = none ∧ twin.scope.findFunction? (lower found) = none := by
      have none := here.scopes.findFunction?_reserved (by rwa [Scopes.isReserved_lower])
      have same := here.scopes.findFunction?_eq (lower found)
      rw [none] at same
      exact ⟨none, Option.map_eq_none_iff.mp same⟩
    exact .neither (fun r twin here value after ran => call_unknown (unknown here).1 r after value rfl rfl ran)
      fun r twin here value after ran => call_unknown (unknown here).2 twin after value rfl rfl ran
  · have unreserved := Bool.eq_false_iff.mpr reserved
    have called : Last.start.calls found '('.toNat = true := by
      rw [Last.calls, unreserved]
      rfl
    rw [Last.behind_of_unreserved unreserved]
    refine .ite Iff.rfl .reject <| .expectJoint ⟨.start, .group :: st⟩ rfl rfl called <| .skip ?_
    refine .choose ⟨.operand, st⟩ rfl rfl (finished [] [] rfl) (.of_pre (fun _ _ level => level.toLoose) ?_)
    exact (reads.arguments st c d).read fun given givenToo same => finished given givenToo same

theorem arguments_tracks (st : List Bracket) (c d : Checkpoint) :
    Tracks w settings (w.Loose ⟨.start, .group :: st⟩) (arguments (n + 1) c) (arguments (k + 1) d)
      (w.Reads (List.map (Expr.relocated w.view)) ⟨.operand, st⟩) := by
  refine .skip <| (reads.expression (.group :: st)).orReject.read fun e mirrored same => .skip ?_
  refine .choose ⟨.start, .group :: st⟩ rfl rfl ?_ ?_
  · refine (reads.arguments st c d).read fun rest restToo sameRest => .value ?_
    rw [List.map_cons, List.map_cons, same, sameRest]
  · exact .expect ⟨.operand, st⟩ rfl rfl <| .value (congrArg (fun e => [e]) same)

theorem arrayAccess_tracks : ReadsOperand w settings (arrayAccess (n + 1)) (arrayAccess (k + 1)) := by
  intro st
  refine .checkpoint fun c d marks => namedVariable_tracks.orRestore.read fun base baseToo sameBase => .skip ?_
  refine .expect ⟨.start, st⟩ rfl rfl <| .skip ?_
  refine (reads.expression st).orReject.read fun index indexToo sameIndex => .skip ?_
  refine .expect ⟨.operand, st⟩ rfl rfl <| .scaling fun scaling => .built ?_
  rw [← Build.index_relocated, ← Build.index_relocated, sameBase, sameIndex, marks.view]

theorem deref_tracks : ReadsOperand w settings (deref (n + 1)) (deref (k + 1)) := by
  intro st
  refine .checkpoint fun c d marks => .expect ⟨.start, st⟩ rfl rfl <| .skip ?_
  have operand : Tracks w settings (w.Level ⟨.start, st⟩) (derefTarget n) (derefTarget k) (w.ReadsTree st) :=
    .peek (fun _ _ => id) fun code mirrored same => .ite (same _ (by decide)) (reads.paren st) <|
      .ite (same _ (by decide)) (reads.deref st) namedVariable_tracks
  refine operand.orReject.read fun address mirrored same => .built ?_
  rw [← Expr.relocated_keeps.deref, ← Expr.relocated_keeps.deref, same, marks.view]

theorem reference_tracks : ReadsOperand w settings (reference (n + 1)) (reference (k + 1)) := by
  intro st
  refine .checkpoint fun c d marks => .expect ⟨.start, st⟩ rfl rfl <| .skip ?_
  have operand : Tracks w settings (w.Level ⟨.start, st⟩) (addressTarget n) (addressTarget k) (w.ReadsTree st) :=
    .ahead rfl (reads.deref st) <|
      .orElse (expressionsSettle _ n).arrayAccess (expressionsSettle _ k).arrayAccess (reads.arrayAccess st)
        namedVariable_tracks
  refine operand.orReject.read fun target mirrored same => .built ?_
  rw [← Build.addressOf_relocated, ← Build.addressOf_relocated, same, marks.view]

omit reads

theorem ExpressionsTrack.succ (reads : ExpressionsTrack w settings n k) :
    ExpressionsTrack w settings (n + 1) (k + 1) where
  expression := expression_tracks reads
  operations := operations_tracks reads
  operand := operand_tracks reads
  paren := paren_tracks reads
  value := value_tracks reads
  increment := increment_tracks reads
  step := step_tracks reads
  cast := cast_tracks reads
  call := call_tracks reads
  arguments := arguments_tracks reads
  arrayAccess := arrayAccess_tracks reads
  deref := deref_tracks reads
  reference := reference_tracks reads

/-- The sources may be of different sizes, so the counts of the two runs are independent. -/
theorem expressionsTrack (w : Rewriting) (settings : Settings) (n k : Nat) : ExpressionsTrack w settings n k := by
  induction n generalizing k with
  | zero => constructor <;> intros <;> first | exact .exhausted | exact fun _ => .exhausted
  | succ n ih =>
    cases k with
    | zero => constructor <;> intros <;> first | exact .exhaustedToo | exact fun _ => .exhaustedToo
    | succ k => exact (ih k).succ

end Cb.Rule
