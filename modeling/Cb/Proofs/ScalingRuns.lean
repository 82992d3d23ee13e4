import Cb.Proofs.RuleLogic
import Cb.Proofs.RuleParts
import Cb.Proofs.ScaledTrees

/-! Reading a source twice, with indices scaled by shifts and by products: both readers are at the same place all the
time, and what one has read is what the other has read, with its indices rescaled. -/

namespace Cb

def Function.rescaled (scaling : Scaling) (f : Function) : Function :=
  { f with body := f.body.map (Stmt.rescaled scaling) }

def Program.rescaled (scaling : Scaling) (program : Program) : Program :=
  ⟨program.functions.map (Function.rescaled scaling)⟩

def Scope.rescaled (scaling : Scaling) (s : Scope) : Scope :=
  { s with functions := s.functions.map (Function.rescaled scaling) }

def Reader.rescaled (scaling : Scaling) (r : Reader) : Reader := { r with scope := r.scope.rescaled scaling }

variable {scaling : Scaling}

@[simp] theorem Function.isImplemented_rescaled (f : Function) : (f.rescaled scaling).isImplemented = f.isImplemented :=
  Option.isSome_map

namespace Scope

@[simp] theorem sizes_rescaled (s : Scope) : (s.rescaled scaling).sizes = s.sizes := by
  simp only [sizes, rescaled, List.length_map]

theorem truncate_rescaled (s : Scope) (sizes : ScopeSizes) :
    (s.rescaled scaling).truncate sizes = (s.truncate sizes).rescaled scaling := by
  simp only [truncate, rescaled, List.map_take]

theorem findFunction?_rescaled (s : Scope) (name : Bytes) :
    (s.rescaled scaling).findFunction? name = (s.findFunction? name).map (Function.rescaled scaling) := by
  simp only [findFunction?, rescaled, List.find?_map]
  rfl

@[simp] theorem findVariable?_rescaled (s : Scope) (name : Bytes) :
    (s.rescaled scaling).findVariable? name = s.findVariable? name := rfl

@[simp] theorem findType?_rescaled (s : Scope) (name : Bytes) :
    (s.rescaled scaling).findType? name = s.findType? name := rfl

theorem register_rescaled (bodiless : f.body = none) (table : List Function) :
    register f (table.map (Function.rescaled scaling)) =
      (register f table).map (List.map (Function.rescaled scaling)) := by
  have same : f.rescaled scaling = f := by
    rw [Function.rescaled, bodiless, Option.map_none, ← bodiless]
  induction table with
  | nil => simp only [List.map_nil, register, Except.map, List.map_cons, same]
  | cons known rest ih =>
    rw [List.map_cons, register, register, ih, Function.isImplemented_rescaled]
    change (if known.name ≠ f.name then _ else if _ then _ else if known.paramTypes ≠ f.paramTypes then _
      else if known.returns ≠ f.returns then _ else _) = _
    split
    · cases register f rest <;> rfl
    repeat' split
    all_goals simp only [Except.map, List.map_cons, same]

theorem addFunction_rescaled (bodiless : f.body = none) (s : Scope) :
    (s.rescaled scaling).addFunction f = (s.addFunction f).map (rescaled scaling) := by
  simp only [addFunction, rescaled, register_rescaled bodiless]
  cases register f s.functions <;> rfl

theorem implement_rescaled (s : Scope) (name : Bytes) (body : Stmt) :
    (s.rescaled scaling).implement name (body.rescaled scaling) = (s.implement name body).rescaled scaling := by
  simp only [implement, rescaled, List.map_map, Node.callNames, Stmt.calls_rescaled]
  congr 1
  refine List.map_congr_left fun f _ => ?_
  simp only [Function.comp]
  by_cases named : f.name = name
  · rw [if_pos named, if_pos (show (f.rescaled scaling).name = name from named)]
    rfl
  · rw [if_neg named, if_neg (show ¬(f.rescaled scaling).name = name from named)]

theorem defineParams_rescaled (s : Scope) (params : List Param) :
    Rule.defineParams (s.rescaled scaling) params = (Rule.defineParams s params).rescaled scaling := by
  induction params generalizing s with
  | nil => rfl
  | cons param rest ih => exact ih (s.defineVariable param.name param.ty).2

end Scope

def Reader.Ignores {α : Type} (scaling : Scaling) (move : Reader → α × Reader) : Prop :=
  ∀ r : Reader, move (r.rescaled scaling) = ((move r).1, (move r).2.rescaled scaling)

namespace Reader

variable {source : Source} {c : Checkpoint}

@[simp] theorem peek_rescaled (r : Reader) : (r.rescaled scaling).peek source = r.peek source := rfl

@[simp] theorem checkpoint_rescaled (r : Reader) : (r.rescaled scaling).checkpoint = r.checkpoint := by
  change Checkpoint.mk r.pos (r.scope.rescaled scaling).sizes = _
  rw [Scope.sizes_rescaled]
  rfl

theorem advance_rescaled (r : Reader) : (r.rescaled scaling).advance source = (r.advance source).rescaled scaling := by
  change (if r.peek source = endOfFile then _ else if r.peek source = endOfLine then _ else _) = _
  rw [advance]
  split
  · rfl
  · split <;> rfl

theorem note_rescaled (r : Reader) (reason : Reason) :
    (r.rescaled scaling).note reason = (r.note reason).rescaled scaling := by
  obtain ⟨pos, scope, failure, remarks⟩ := r
  cases failure with
  | none => rfl
  | some known =>
    change (if pos.before known.pos then _ else _) = rescaled scaling (if pos.before known.pos then _ else _)
    split <;> rfl

theorem restore_rescaled (r : Reader) (c : Checkpoint) :
    (r.rescaled scaling).restore c = (r.restore c).rescaled scaling := by
  change Reader.mk _ ((r.scope.rescaled scaling).truncate c.sizes) _ _ = _
  rw [Scope.truncate_rescaled]
  rfl

theorem restoreScope_rescaled (r : Reader) (c : Checkpoint) :
    (r.rescaled scaling).restoreScope c = (r.restoreScope c).rescaled scaling := by
  change Reader.mk _ ((r.scope.rescaled scaling).truncate c.sizes) _ _ = _
  rw [Scope.truncate_rescaled]
  rfl

theorem reject_rescaled (r : Reader) (c : Checkpoint) (reason : Reason) :
    (r.rescaled scaling).reject c reason = (r.reject c reason).rescaled scaling := by
  rw [reject, note_rescaled, restore_rescaled, reject]

theorem remark_rescaled (r : Reader) (remark : Remark) :
    (r.rescaled scaling).remark remark = (r.remark remark).rescaled scaling := by
  change (if r.remarks.any _ then _ else _) = _
  rw [Reader.remark]
  split <;> rfl

theorem skipUpTo_ignores (limit : Nat) : Ignores scaling (skipUpTo source limit) := by
  induction limit with
  | zero => exact fun _ => rfl
  | succ limit ih =>
    intro r
    simp only [skipUpTo, peek_rescaled, advance_rescaled, ih _]
    split <;> rfl

theorem test_ignores (code : Nat) : Ignores scaling (test source code) := by
  intro r
  simp only [test, peek_rescaled, advance_rescaled]
  split <;> rfl

theorem testCodes_ignores (codes : List Nat) : Ignores scaling (testCodes source codes) := by
  induction codes with
  | nil => exact fun _ => rfl
  | cons code rest ih =>
    intro r
    simp only [testCodes, test_ignores code r]
    cases r.test source code with
    | mk moved after =>
      cases moved with
      | true => exact ih after
      | false => rfl

theorem testText_ignores (text : Bytes) : Ignores scaling (testText source text) := by
  intro r
  simp only [testText, testCodes_ignores _ r, checkpoint_rescaled]
  cases testCodes source (codePoints text) r with
  | mk moved after =>
    cases moved with
    | true => rfl
    | false => exact congrArg (Prod.mk false) (restore_rescaled after _)

theorem expect_ignores (code : Nat) : Ignores scaling (expect source code c) := by
  intro r
  simp only [expect, peek_rescaled, advance_rescaled, reject_rescaled]
  split <;> rfl

theorem expectCodes_ignores (codes : List Nat) : Ignores scaling (expectCodes source c codes) := by
  induction codes with
  | nil => exact fun _ => rfl
  | cons code rest ih =>
    intro r
    simp only [expectCodes, expect_ignores code r]
    cases r.expect source code c with
    | mk moved after =>
      cases moved with
      | true => exact ih after
      | false => rfl

theorem restOfLine_ignores : Ignores scaling (restOfLine source) := by
  intro r
  simp only [restOfLine, rescaled]
  split <;> rfl

end Reader

def Env.scaled (scaling : Scaling) (env : Env) : Env :=
  { env with settings := env.settings.setFeature .shlScaling (scaling = .shift) }

def Reply.rescaled {α : Type} (scaling : Scaling) (image : α → α) : Reply α → Reply α
  | .ok value r => .ok (image value) (r.rescaled scaling)
  | .fail r => .fail (r.rescaled scaling)
  | .exhausted => .exhausted

def Rule.Mirrors {α : Type} (env : Env) (scaling : Scaling) (image : α → α) (rule mirror : Rule α) : Prop :=
  ∀ (origin : Scaling) (r : Reader),
    mirror (env.scaled scaling) (r.rescaled scaling) = (rule (env.scaled origin) r).rescaled scaling image

abbrev Rule.Rescales {α : Type} (env : Env) (scaling : Scaling) (image : α → α) (rule : Rule α) : Prop :=
  Mirrors env scaling image rule rule

abbrev Rule.RescalesTree (env : Env) (scaling : Scaling) (rule : Rule Expr) : Prop :=
  Rescales env scaling (Expr.rescaled scaling) rule

abbrev Rule.RescalesBody (env : Env) (scaling : Scaling) (rule : Rule Stmt) : Prop :=
  Rescales env scaling (Stmt.rescaled scaling) rule

namespace Rule

namespace Mirrors

variable {α β : Type} {env : Env} {image : α → α} {result : β → β} {rule mirror other otherMirror : Rule α}
  {c : Checkpoint} {reason : Reason}

theorem pure {value mirrored : α} (same : image value = mirrored) :
    Mirrors env scaling image (Pure.pure value) (Pure.pure mirrored) := by
  intro origin r
  subst same
  rfl

theorem exhausted : Rescales env scaling image Rule.exhausted := fun _ _ => rfl

variable {next nextMirror : α → Rule β}

theorem bindRead (first : Mirrors env scaling image rule mirror)
    (second : ∀ value, (∃ env r after, rule env r = .ok value after) →
      Mirrors env scaling result (next value) (nextMirror (image value))) :
    Mirrors env scaling result (rule >>= next) (mirror >>= nextMirror) := by
  intro origin r
  simp only [bind_apply, first origin r]
  cases ran : rule (env.scaled origin) r with
  | ok value after => exact second value ⟨_, r, after, ran⟩ origin after
  | fail => rfl
  | exhausted => rfl

theorem bind (first : Mirrors env scaling image rule mirror)
    (second : ∀ value, Mirrors env scaling result (next value) (nextMirror (image value))) :
    Mirrors env scaling result (rule >>= next) (mirror >>= nextMirror) :=
  first.bindRead fun value _ => second value

theorem after (first : Mirrors env scaling id rule mirror)
    (second : ∀ value, Mirrors env scaling result (next value) (nextMirror value)) :
    Mirrors env scaling result (rule >>= next) (mirror >>= nextMirror) :=
  first.bind second

theorem choose {p : Prop} [Decidable p] (yes : Mirrors env scaling image rule mirror)
    (no : Mirrors env scaling image other otherMirror) :
    Mirrors env scaling image (if p then rule else other) (if p then mirror else otherMirror) := by
  split
  · exact yes
  · exact no

theorem chooseThen [Decidable p] (yes : Mirrors env scaling image rule mirror)
    (no : Mirrors env scaling image other otherMirror)
    (second : ∀ value, Mirrors env scaling result (next value) (nextMirror (image value))) :
    Mirrors env scaling result (if p then rule >>= next else other >>= next)
      (if p then mirror >>= nextMirror else otherMirror >>= nextMirror) :=
  .choose (yes.bind second) (no.bind second)

theorem orElse (first : Mirrors env scaling image rule mirror) (second : Mirrors env scaling image other otherMirror) :
    Mirrors env scaling image (Rule.orElse rule other) (Rule.orElse mirror otherMirror) := by
  intro origin r
  simp only [Rule.orElse, first origin r]
  cases rule (env.scaled origin) r with
  | ok => rfl
  | fail after => exact second origin after
  | exhausted => rfl

theorem optional (first : Mirrors env scaling image rule mirror) :
    Mirrors env scaling (Option.map image) (Rule.optional rule) (Rule.optional mirror) := by
  intro origin r
  simp only [Rule.optional, first origin r]
  cases rule (env.scaled origin) r <;> rfl

theorem orReject (first : Mirrors env scaling image rule mirror) :
    Mirrors env scaling image (Rule.orReject rule c reason) (Rule.orReject mirror c reason) := by
  intro origin r
  simp only [Rule.orReject, first origin r]
  cases rule (env.scaled origin) r with
  | ok => rfl
  | fail after => exact congrArg Reply.fail (after.reject_rescaled c reason)
  | exhausted => rfl

theorem orRestore (first : Mirrors env scaling image rule mirror) :
    Mirrors env scaling image (Rule.orRestore rule c) (Rule.orRestore mirror c) := by
  intro origin r
  simp only [Rule.orRestore, first origin r]
  cases rule (env.scaled origin) r with
  | ok => rfl
  | fail after => exact congrArg Reply.fail (after.restore_rescaled c)
  | exhausted => rfl

theorem reject : Rescales env scaling image (Rule.reject c reason) :=
  fun _ r => congrArg Reply.fail (r.reject_rescaled c reason)

theorem fails : Rescales env scaling image (Rule.fails c) := fun _ r => congrArg Reply.fail (r.restore_rescaled c)

theorem failHere : Rescales env scaling image (Rule.failHere reason) :=
  fun _ r => congrArg Reply.fail (r.note_rescaled reason)

theorem update (same : ∀ r, changeMirror (r.rescaled scaling) = (change r).rescaled scaling) :
    Mirrors env scaling id (Rule.update change) (Rule.update changeMirror) :=
  fun _ r => congrArg (Reply.ok ()) (same r)

theorem require (ignores : Reader.Ignores scaling (move env.source)) :
    Rescales env scaling id (Rule.require move) := by
  intro origin r
  simp only [Rule.require, Env.scaled]
  rw [ignores r]
  cases move env.source r with
  | mk moved after => cases moved <;> rfl

theorem tries (ignores : Reader.Ignores scaling (move env.source)) :
    Rescales env scaling id (Rule.tries move) := by
  intro origin r
  change Reply.ok (move env.source (r.rescaled scaling)).1 (move env.source (r.rescaled scaling)).2 = _
  rw [ignores r]
  rfl

theorem checkpoint : Rescales env scaling id Rule.checkpoint :=
  fun _ r => congrArg (Reply.ok · (r.rescaled scaling)) r.checkpoint_rescaled

theorem position : Rescales env scaling id Rule.position := fun _ _ => rfl

theorem scope : Rescales env scaling (Scope.rescaled scaling) Rule.scope := fun _ _ => rfl

theorem setScope (same : (s.rescaled scaling) = mirrored) :
    Mirrors env scaling id (Rule.setScope s) (Rule.setScope mirrored) := by
  subst same
  exact .update fun _ => rfl

theorem peek : Rescales env scaling id Rule.peek := fun _ _ => rfl

theorem advance : Rescales env scaling id Rule.advance := fun _ r => congrArg (Reply.ok _) r.advance_rescaled

theorem skip : Rescales env scaling id Rule.skip :=
  fun _ r => congrArg (fun moved : Nat × Reader => Reply.ok () moved.2) (Reader.skipUpTo_ignores _ r)

theorem test {character : Char} : Rescales env scaling id (Rule.test character) :=
  .tries (Reader.test_ignores _)

theorem testText : Rescales env scaling id (Rule.testText text) :=
  .tries (Reader.testText_ignores _)

theorem expect {character : Char} : Rescales env scaling id (Rule.expect character c) :=
  .require (Reader.expect_ignores _)

variable {next nextMirror : Unit → Rule β}

theorem skipped (second : Mirrors env scaling result (next ()) (nextMirror ())) :
    Mirrors env scaling result (Rule.skip >>= next) (Rule.skip >>= nextMirror) :=
  .after .skip fun _ => second

theorem spaced {character : Char} (second : Mirrors env scaling result (next ()) (nextMirror ())) :
    Mirrors env scaling result (Rule.skip >>= fun _ => Rule.expect character c >>= next)
      (Rule.skip >>= fun _ => Rule.expect character c >>= nextMirror) :=
  .skipped (.after .expect fun _ => second)

theorem whether {character : Char} (yes : Mirrors env scaling image rule mirror)
    (no : Mirrors env scaling image other otherMirror) :
    Mirrors env scaling image (Rule.test character >>= fun found => if found then rule else other)
      (Rule.test character >>= fun found => if found then mirror else otherMirror) :=
  .after .test fun _ => .choose yes no

theorem restore : Rescales env scaling id (Rule.restore c) := .update fun r => r.restore_rescaled c

theorem word : Rescales env scaling id Rule.word := fun _ _ => rfl

theorem restOfLine : Rescales env scaling id Rule.restOfLine :=
  fun _ r => congrArg (fun moved : Bytes × Reader => Reply.ok moved.1 moved.2) (Reader.restOfLine_ignores r)

theorem atEnd : Rescales env scaling id Rule.atEnd := fun _ _ => rfl

theorem isOn (differs : feature ≠ .shlScaling) :
    Rescales env scaling id (Rule.isOn feature) := by
  intro origin r
  have unset (scaling : Scaling) : (env.scaled scaling).settings.features feature = env.settings.features feature :=
    if_neg differs
  simp only [Rule.isOn, unset]
  rfl

theorem whenScaled {next nextMirror : Scaling → Rule β}
    (second : ∀ origin, Mirrors env scaling result (next origin) (nextMirror scaling)) :
    Mirrors env scaling result (Rule.scaling >>= next) (Rule.scaling >>= nextMirror) := by
  have found (scaling : Scaling) (r : Reader) : Rule.scaling (env.scaled scaling) r = .ok scaling r := by
    cases scaling <;> rfl
  intro origin r
  simp only [bind_apply, found]
  exact second origin origin r

theorem sourceSize : Rescales env scaling id Rule.sourceSize := fun _ _ => rfl

theorem built (same : mirrored = tree.map image) :
    Mirrors env scaling image (Rule.built tree c) (Rule.built mirrored c) := by
  subst same
  cases tree with
  | ok => exact .pure rfl
  | error => exact .reject

theorem warn :
    Rescales env scaling id (Rule.warn warning pos message) := by
  intro origin r
  change (if env.settings.warnings warning then _ else _) =
    Reply.rescaled scaling id (if env.settings.warnings warning then _ else _)
  split
  · exact congrArg (Reply.ok ()) (r.remark_rescaled _)
  · rfl

theorem keyword : Rescales env scaling id (Rule.keyword text c) :=
  .after (.require (Reader.expectCodes_ignores _)) fun _ => .after .peek fun _ => .choose .fails (.pure rfl)

theorem name : Rescales env scaling id (Rule.name c what) :=
  .after .word fun _ => .choose .reject (.pure rfl)

theorem stars (limit : Nat) : Rescales env scaling id (Rule.stars limit) := by
  induction limit with
  | zero => exact .exhausted
  | succ limit ih =>
    refine .after .test fun found => .choose ?_ (.pure rfl)
    exact .skipped <| .after ih fun _ => .pure rfl

theorem dataType : Rescales env scaling id Rule.dataType := by
  refine .after .checkpoint fun c => .after .word fun found => .choose .reject <| .bind .scope fun s => ?_
  rw [Scope.findType?_rescaled]
  cases s.findType? found with
  | none => exact .reject
  | some ty => exact .skipped <| .after .sourceSize fun size => .after (.stars _) fun depth => .pure rfl

end Mirrors

variable {env : Env}

theorem applyPending_rescaled (origin : Scaling) (incoming : Option Operator) (pending : List Pending)
    (values : List Expr) :
    applyPending scaling incoming pending (values.map (Expr.rescaled scaling)) =
      (applyPending origin incoming pending values).map (Prod.map id (List.map (Expr.rescaled scaling))) := by
  induction pending generalizing values with
  | nil => rfl
  | cons top pending ih =>
    simp only [applyPending]
    split
    · match values with
      | [] | [_] => rfl
      | right :: left :: rest =>
        simp only [List.map_cons, Build.binary_rescaled origin, Bind.bind, Except.bind]
        cases Build.binary origin top.pos top.op left right with
        | error => rfl
        | ok e => exact ih (e :: rest)
    · rfl

theorem operator_rescales : Rescales env scaling id operator := by
  have nothing (c : Checkpoint) : Rescales env scaling id (operator.none? c) := by
    have rejected : Rescales env scaling id (reject c (.invalid "operator") : Rule Operator) := .reject
    have found := rejected.optional
    rw [Option.map_id] at found
    exact found
  refine .after .checkpoint fun c => .whether (.pure rfl) <| .whether (.pure rfl) <| .whether (.pure rfl) <|
    .whether (.pure rfl) <| .whether (.pure rfl) <| .whether ?_ <| .whether ?_ <| .whether ?_ <| .whether ?_ <|
    .whether (.pure rfl) <| .whether (.pure rfl) <| .whether (.pure rfl) (nothing c)
  · exact .whether (.pure rfl) <| .whether (.pure rfl) (.pure rfl)
  · exact .whether (.pure rfl) <| .whether (.pure rfl) (.pure rfl)
  · exact .whether (.pure rfl) (.pure rfl)
  · exact .whether (.pure rfl) (nothing c)

theorem null_rescales : RescalesTree env scaling null :=
  .after .checkpoint fun _ => .after .keyword fun _ => .pure rfl

theorem namedVariable_rescales : RescalesTree env scaling namedVariable := by
  refine .after .checkpoint fun c => .after .word fun found => .choose .reject <| .bind .scope fun s => ?_
  rw [Scope.findVariable?_rescaled]
  cases s.findVariable? (lower found) with
  | none => exact .reject
  | some v =>
    exact .after .checkpoint fun afterName => .skipped <| .after .peek fun code => .choose .reject <|
      .after .restore fun _ => .pure rfl

theorem sizeOf_rescales : RescalesTree env scaling sizeOf := by
  refine .after .checkpoint fun c => .after .keyword fun _ => .spaced <| .skipped <|
    .after (.orElse (.after .dataType fun _ => .pure rfl) ?_) fun size => .after .expect fun _ => .pure rfl
  refine .bind .scope fun s => .after .word fun found => ?_
  rw [Scope.findVariable?_rescaled]
  cases s.findVariable? (lower found) with
  | none => exact .reject
  | some v => exact .skipped (.pure rfl)

theorem character_rescales (c : Checkpoint) : Rescales env scaling id (character c) := by
  refine .after .advance fun code => .choose (.after .advance fun code => ?_) <| .after (.pure rfl) fun _ =>
    .after .expect fun _ => .pure rfl
  cases escaped? code with
  | some value => exact .after (.pure rfl) fun _ => .after .expect fun _ => .pure rfl
  | none => exact .reject

theorem digit_rescales : Rescales env scaling id digit? :=
  .after .peek fun _ => .choose (.after .advance fun _ => .pure rfl) (.pure rfl)

theorem digits_rescales (c : Checkpoint) (room : Nat) (number : Int) :
    Rescales env scaling id (digits c room number) := by
  induction room generalizing number with
  | zero =>
    refine .after digit_rescales fun found => ?_
    cases found with
    | some => exact .reject
    | none => exact .pure rfl
  | succ room ih =>
    refine .after digit_rescales fun found => ?_
    cases found with
    | some digit => exact ih _
    | none => exact .pure rfl

theorem literal_rescales : RescalesTree env scaling literal := by
  refine .after .checkpoint fun c => .after .test fun negative => .after .test fun quoted => .choose ?_ <|
    .after .peek fun code => .choose ?_ .reject
  · exact .after (character_rescales c) fun code => .pure (Build.number_rescaled _ _)
  · exact .after (digits_rescales c 6 0) fun magnitude => .choose .reject (.pure (Build.number_rescaled _ _))

def Locates (rule : Rule Expr) : Prop := ∀ env r e after, rule env r = .ok e after → e.isLocated = true

namespace Locates

variable {rule other : Rule Expr} {c : Checkpoint} {reason : Reason}

theorem exhausted : Locates exhausted := fun _ _ _ _ ran => nomatch ran

theorem pure (located : e.isLocated = true) : Locates (Pure.pure e) := by
  intro env r e' after ran
  cases ran
  exact located

theorem bind {α : Type} {rule : Rule α} {next : α → Rule Expr} (second : ∀ value, Locates (next value)) :
    Locates (rule >>= next) := by
  intro env r e after ran
  obtain ⟨value, middle, _, ran⟩ := bind_ok ran
  exact second value env middle e after ran

theorem choose {p : Prop} [Decidable p] (yes : Locates rule) (no : Locates other) :
    Locates (if p then rule else other) := by
  split
  · exact yes
  · exact no

theorem orElse (first : Locates rule) (second : Locates other) : Locates (Rule.orElse rule other) := by
  intro env r e after ran
  simp only [Rule.orElse] at ran
  split at ran
  · exact second env _ e after ran
  · exact first env r e after ran

theorem orReject (first : Locates rule) : Locates (Rule.orReject rule c reason) := by
  intro env r e after ran
  simp only [Rule.orReject] at ran
  split at ran
  · cases ran
  · exact first env r e after ran

theorem reject : Locates (Rule.reject c reason) := fun _ _ _ _ ran => nomatch ran

theorem built (located : ∀ e, tree = .ok e → e.isLocated = true) :
    Locates (Rule.built tree c) := by
  cases tree with
  | error => exact .reject
  | ok e => exact .pure (located e rfl)

end Locates

theorem namedVariable_locates : Locates namedVariable := by
  refine .bind fun c => .bind fun found => .choose .reject <| .bind fun s => ?_
  cases s.findVariable? (lower found) with
  | none => exact .reject
  | some v => exact .bind fun _ => .bind fun _ => .bind fun _ => .choose .reject <| .bind fun _ => .pure rfl

theorem deref_locates (n : Nat) : Locates (deref n) := by
  cases n with
  | zero => exact .exhausted
  | succ n => exact .bind fun _ => .bind fun _ => .bind fun _ => .bind fun _ => .built fun _ => Build.deref_isLocated

theorem arrayAccess_locates (n : Nat) : Locates (arrayAccess n) := by
  cases n with
  | zero => exact .exhausted
  | succ n =>
    exact .bind fun _ => .bind fun _ => .bind fun _ => .bind fun _ => .bind fun _ => .bind fun _ => .bind fun _ =>
      .bind fun _ => .bind fun _ => .built fun _ => Build.index_isLocated

structure ExpressionsRescale (env : Env) (scaling : Scaling) (n : Nat) : Prop where
  expression : RescalesTree env scaling (expression n)
  operations : ∀ c pending values, Mirrors env scaling (Expr.rescaled scaling) (operations n c pending values)
    (operations n c pending (values.map (Expr.rescaled scaling)))
  operand : RescalesTree env scaling (operand n)
  paren : RescalesTree env scaling (paren n)
  value : RescalesTree env scaling (value n)
  increment : RescalesTree env scaling (increment n)
  step : ∀ c down, RescalesTree env scaling (step n c down)
  cast : RescalesTree env scaling (cast n)
  call : RescalesTree env scaling (call n)
  arguments : ∀ c, Rescales env scaling (List.map (Expr.rescaled scaling)) (arguments n c)
  arrayAccess : RescalesTree env scaling (arrayAccess n)
  deref : RescalesTree env scaling (deref n)
  reference : RescalesTree env scaling (reference n)

namespace ExpressionsRescale

variable {n : Nat} (ih : ExpressionsRescale env scaling n)

include ih

theorem operations_step (c : Checkpoint) (pending : List Pending) (values : List Expr) :
    Mirrors env scaling (Expr.rescaled scaling) (Rule.operations (n + 1) c pending values)
      (Rule.operations (n + 1) c pending (values.map (Expr.rescaled scaling))) := by
  refine .after .checkpoint fun afterOperand => .skipped <| .after .position fun pos =>
    .after operator_rescales fun incoming => .whenScaled fun origin =>
    .bind (.built (applyPending_rescaled origin incoming pending values)) fun both => ?_
  cases incoming with
  | none =>
    refine .after .restore fun _ => ?_
    match both with
    | (_, []) => exact .fails
    | (_, _ :: _) => exact .pure rfl
  | some op =>
    exact .skipped <| .bind (.orReject ih.operand) fun next => ih.operations c _ (next :: both.2)

theorem increment_step : RescalesTree env scaling (Rule.increment (n + 1)) :=
  .after .checkpoint fun c => .after .testText fun _ => .choose (ih.step c false) <| .after .testText fun _ =>
    .choose (ih.step c true) .fails

theorem cast_step : RescalesTree env scaling (Rule.cast (n + 1)) := by
  refine .after .checkpoint fun c => .after .expect fun _ => .skipped <| .after (.orRestore .dataType) fun target =>
    .after .expect fun _ => .skipped <| .bind (.orReject (.after .peek fun _ => .choose ih.paren ih.value)) fun inner =>
    .bind (.built (Expr.rescaled_keeps.cast inner target)) fun e => ?_
  simp only [Expr.rescaled_keeps.isConstant_eq, Expr.rescaled_keeps.value_eq]
  exact .choose (.after .warn fun _ => .pure rfl) (.pure rfl)

theorem call_step : RescalesTree env scaling (Rule.call (n + 1)) := by
  refine .after .checkpoint fun c => .after .word fun found => .choose .reject <| .after .expect fun _ => .skipped <|
    .after .test fun closed => .chooseThen (.pure rfl) (ih.arguments c) fun given => ?_
  refine .bind .scope fun s => ?_
  rw [Scope.findFunction?_rescaled]
  cases s.findFunction? (lower found) with
  | none => exact .reject
  | some callee => exact .built (Expr.rescaled_keeps.call c.pos callee.toSignature given)

theorem arguments_step (c : Checkpoint) :
    Rescales env scaling (List.map (Expr.rescaled scaling)) (Rule.arguments (n + 1) c) := by
  refine .skipped <| .bind (.orReject ih.expression) fun e => .skipped <| .after .test fun more => .choose ?_ ?_
  · exact .bind (ih.arguments c) fun _ => .pure rfl
  · exact .after .expect fun _ => .pure rfl

theorem arrayAccess_step : RescalesTree env scaling (Rule.arrayAccess (n + 1)) :=
  .after .checkpoint fun c => .bind (.orRestore namedVariable_rescales) fun base => .spaced <| .skipped <|
    .bind (.orReject ih.expression) fun index => .spaced <| .whenScaled fun origin =>
    .built (Build.index_rescaled origin c.pos base index)

theorem deref_step : RescalesTree env scaling (Rule.deref (n + 1)) :=
  .after .checkpoint fun c => .after .expect fun _ => .skipped <| .bind (.orReject (.after .peek fun _ =>
    .choose ih.paren (.choose ih.deref namedVariable_rescales)))
      fun address => .built (Expr.rescaled_keeps.deref address c.pos)

theorem reference_step : RescalesTree env scaling (Rule.reference (n + 1)) := by
  refine .after .checkpoint fun c => .after .expect fun _ => .skipped <| .bindRead (.orReject (.after .peek fun _ =>
    .choose ih.deref (.orElse ih.arrayAccess namedVariable_rescales)))
      fun target read => .built (Build.addressOf_rescaled c.pos ?_)
  have located : Locates (Rule.orReject (addressTarget n) c .noAddress) :=
    .orReject <| .bind fun _ => .choose (deref_locates n) (.orElse (arrayAccess_locates n) namedVariable_locates)
  obtain ⟨_, r, after, ran⟩ := read
  exact located _ _ _ _ ran

theorem value_step : RescalesTree env scaling (Rule.value (n + 1)) :=
  .orElse null_rescales <| .orElse ih.increment <| .orElse ih.cast <| .orElse sizeOf_rescales <| .orElse ih.call <|
    .orElse ih.arrayAccess <| .orElse namedVariable_rescales <| .orElse literal_rescales <| .orElse ih.deref <|
    .orElse ih.reference .failHere

theorem succ : ExpressionsRescale env scaling (n + 1) where
  expression := .after .checkpoint fun c => .bind (.orReject ih.operand) fun first => ih.operations c [] [first]
  operations := ih.operations_step
  operand := .orElse ih.cast <| .after .peek fun _ => .choose ih.paren ih.value
  paren := .after .checkpoint fun _ => .after .expect fun _ => .skipped <|
    .bind (.orReject ih.expression) fun _ => .spaced (.pure rfl)
  value := ih.value_step
  increment := ih.increment_step
  step c down := .skipped <| .bind (.orReject ih.value) fun target =>
    .built (Expr.rescaled_keeps.step target c.pos down)
  cast := ih.cast_step
  call := ih.call_step
  arguments := ih.arguments_step
  arrayAccess := ih.arrayAccess_step
  deref := ih.deref_step
  reference := ih.reference_step

end ExpressionsRescale

theorem expressionsRescale (env : Env) (scaling : Scaling) (n : Nat) : ExpressionsRescale env scaling n := by
  induction n with
  | zero => constructor <;> intros <;> exact .exhausted
  | succ n ih => exact ih.succ

theorem expression_rescales (n : Nat) : RescalesTree env scaling (expression n) :=
  (expressionsRescale env scaling n).expression

theorem condition_rescales (n : Nat) (c : Checkpoint) :
    RescalesTree env scaling (condition n c) := by
  refine .bind (.orReject (expression_rescales n)) fun e => ?_
  simp only [Expr.rescaled_keeps.ty_eq, Expr.rescaled_keeps.pos_eq]
  have finished (e : Expr) : Mirrors env scaling (Expr.rescaled scaling)
      (if e.ty = .flags then Pure.pure e else reject c (.conditionType e.ty))
      (if (e.rescaled scaling).ty = .flags then Pure.pure (e.rescaled scaling)
        else reject c (.conditionType (e.rescaled scaling).ty)) := by
    rw [Expr.rescaled_keeps.ty_eq]
    exact .choose (.pure rfl) .reject
  refine .choose (.bind (.built ?_) finished) (.bind (.pure rfl) finished)
  exact Expr.rescaled_keeps.compare e (Build.literal e.pos 0 e.ty) e.pos .notEqual

theorem leaveLoop_rescales (place : Place)
    (kept : ∀ pos bytes, (leave pos bytes).rescaled scaling = leave pos bytes) :
    RescalesBody env scaling (leaveLoop text reason leave place) := by
  refine .after .checkpoint fun c => .after .keyword fun _ => .spaced ?_
  cases place.loop with
  | none => exact .reject
  | some height => exact .bind .scope fun _ => .pure (kept _ _)

theorem assemblyLines_rescales (c : Checkpoint) (n : Nat) : Rescales env scaling id (assemblyLines c n) := by
  induction n with
  | zero => exact .exhausted
  | succ n ih =>
    exact .after .atEnd fun _ => .choose .reject <| .skipped <| .whether (.pure rfl) <| .after .restOfLine fun _ =>
      .after ih fun _ => .pure rfl

theorem assembly_rescales : RescalesBody env scaling assembly :=
  .after .checkpoint fun c => .after .keyword fun _ => .spaced <|
    .after (.isOn (by decide)) fun _ => .choose (.after .sourceSize fun size =>
      .after (assemblyLines_rescales c _) fun _ => .pure rfl) .reject

theorem returnStatement_rescales (n : Nat) (place : Place) :
    RescalesBody env scaling (returnStatement n place) := by
  refine .after .checkpoint fun c => .after .keyword fun _ => .skipped <| .choose ?_ ?_
  · exact .after .expect fun _ => .bind .scope fun _ => .pure rfl
  · exact .bind (.orReject (expression_rescales n)) fun e => .spaced <|
      .bind (.built (Expr.rescaled_keeps.implicit e place.returns)) fun _ => .bind .scope fun _ => .pure rfl

theorem checkNewName_rescales (name : Bytes) (c : Checkpoint) : Rescales env scaling id (checkNewName name c) := by
  refine .bind .scope fun s => .choose .reject <| .bind .scope fun s => ?_
  rw [Scope.findFunction?_rescaled, Option.isSome_map]
  exact .choose .reject (.pure rfl)

theorem arrayDeclaration_rescales (n : Nat) (c : Checkpoint) (name : Bytes) (element : Ty) :
    RescalesBody env scaling (arrayDeclaration n c name element) := by
  refine .after (.isOn (by decide)) fun _ => .choose .reject <| .skipped <|
    .bind (.orReject (expression_rescales n)) fun length => ?_
  simp only [Expr.rescaled_keeps.isConstant_eq, Expr.rescaled_keeps.ty_eq, Expr.rescaled_keeps.value_eq]
  exact .choose .reject <| .choose .reject <| .spaced <| .spaced <| .bind .scope fun _ =>
    .after (.setScope rfl) fun _ => .pure rfl

theorem declaration_rescales (n : Nat) : RescalesBody env scaling (declaration n) := by
  refine .after .checkpoint fun c => .after (.orReject .dataType) fun ty => .choose .reject <| .after .name fun name =>
    .after (checkNewName_rescales name c) fun _ => .skipped <| .whether (arrayDeclaration_rescales n c name ty) <|
    .after .test fun _ => ?_
  have finished (init : Option Expr) : Mirrors env scaling (Stmt.rescaled scaling) (declare c name ty init)
      (declare c name ty (init.map (Expr.rescaled scaling))) :=
    .after .expect fun _ => .bind .scope fun _ => .after (.setScope rfl) fun _ => .pure rfl
  refine .choose ?_ (finished none)
  exact .skipped <| .bind (.orReject (expression_rescales n)) fun e =>
    .bind (.built (Expr.rescaled_keeps.implicit e ty)) fun e => .skipped (finished (some e))

theorem evaluation_rescales (n : Nat) : RescalesBody env scaling (evaluation n) :=
  .after .checkpoint fun _ => .bind (expression_rescales n) fun _ => .spaced (.pure rfl)

theorem initializer_rescales (n : Nat) (c : Checkpoint) :
    Rescales env scaling (Option.map (Stmt.rescaled scaling)) (initializer n c) := by
  refine .whether (.pure rfl) <| .bind (declaration_rescales n).optional fun found => ?_
  cases found with
  | some s => exact .pure rfl
  | none =>
    refine .bind (.orReject (expression_rescales n)) fun e => .spaced (.pure ?_)
    rw [Expr.rescaled_keeps.pos_eq]
    rfl

theorem loopCondition_rescales (n : Nat) (c : Checkpoint) :
    Rescales env scaling (Option.map (Expr.rescaled scaling)) (loopCondition n c) :=
  .whether (.pure rfl) <| .bind (condition_rescales n c) fun _ => .spaced (.pure rfl)

theorem incrementer_rescales (n : Nat) (c : Checkpoint) :
    Rescales env scaling (Option.map (Expr.rescaled scaling)) (incrementer n c) :=
  .after .peek fun _ => .choose (.after .expect fun _ => .pure rfl) <|
    .bind (.orReject (expression_rescales n)) fun _ => .spaced (.pure rfl)

theorem exitBlock_rescales : Rescales env scaling id exitBlock :=
  .bind .scope fun _ => .after (.setScope rfl) fun _ => .pure rfl

structure StatementsRescale (env : Env) (scaling : Scaling) (n : Nat) : Prop where
  statement : ∀ place, RescalesBody env scaling (statement n place)
  block : ∀ place, RescalesBody env scaling (block n place)
  items : ∀ place c terminated warned,
    Rescales env scaling (List.map (Stmt.rescaled scaling)) (items n place c terminated warned)
  branch : ∀ place, RescalesBody env scaling (branch n place)
  loopBody : ∀ place, RescalesBody env scaling (loopBody n place)
  whileLoop : ∀ place, RescalesBody env scaling (whileLoop n place)
  forLoop : ∀ place, RescalesBody env scaling (forLoop n place)

namespace StatementsRescale

variable {n : Nat} (ih : StatementsRescale env scaling n)

include ih

theorem block_step (place : Place) : RescalesBody env scaling (Rule.block (n + 1) place) := by
  refine .after .checkpoint fun c => .whether (.pure rfl) <| .whether ?_ ?_
  · refine .after (.update fun _ => rfl) fun _ => .skipped <| .bind (ih.items place c false false) fun body =>
      .after exitBlock_rescales fun bytes => .pure ?_
    rw [Stmt.rescaled, Stmt.rescaledAll_eq]
  · exact .after (.update fun _ => rfl) fun _ => .bind (.orRestore (ih.statement place)) fun s =>
      .after exitBlock_rescales fun bytes => .pure rfl

theorem items_step (place : Place) (c : Checkpoint) (terminated warned : Bool) :
    Rescales env scaling (List.map (Stmt.rescaled scaling)) (Rule.items (n + 1) place c terminated warned) := by
  refine .whether (.pure rfl) <| .after .peek fun _ => .choose .reject <| .after .position fun pos =>
    .bind (.orRestore (ih.statement place)) fun s => ?_
  have finished : Mirrors env scaling (List.map (Stmt.rescaled scaling))
      (laterItems n place c terminated s) (laterItems n place c terminated (s.rescaled scaling)) := by
    rw [laterItems, laterItems, Stmt.terminates_rescaled]
    exact .skipped <| .bind (ih.items place c _ _) fun _ => .pure rfl
  exact .choose (.after .warn fun _ => finished) finished

theorem branch_step (place : Place) : RescalesBody env scaling (Rule.branch (n + 1) place) := by
  refine .after .checkpoint fun c => .after .keyword fun _ => .spaced <| .skipped <|
    .bind (condition_rescales n c) fun e => .spaced <| .skipped <| .bind (.orReject (ih.block place)) fun yes =>
    .after .checkpoint fun afterYes => .skipped <| .bind (.optional .keyword) fun found => ?_
  cases found with
  | none => exact .pure rfl
  | some => exact .skipped <| .bind (.orReject (ih.block place)) fun no => .pure rfl

theorem whileLoop_step (place : Place) :
    RescalesBody env scaling (Rule.whileLoop (n + 1) place) :=
  .after .checkpoint fun c => .after .keyword fun _ => .spaced <| .skipped <| .bind (condition_rescales n c) fun _ =>
    .spaced <| .skipped <| .bind (.orReject (ih.loopBody place)) fun _ => .pure rfl

theorem forLoop_step (place : Place) : RescalesBody env scaling (Rule.forLoop (n + 1) place) := by
  refine .after .checkpoint fun c => .after .keyword fun _ => .spaced <| .skipped <| .bind .scope fun s =>
    .bind (initializer_rescales n c) fun init => .skipped <| .bind (loopCondition_rescales n c) fun e => .skipped <|
    .bind (incrementer_rescales n c) fun post => .skipped <| .bind (.orReject (ih.loopBody place)) fun body =>
    .bind .scope fun t => .after (.update fun r => r.restoreScope_rescaled c) fun _ => .pure ?_
  cases init <;> rfl

theorem statement_step (place : Place) :
    RescalesBody env scaling (Rule.statement (n + 1) place) :=
  .after .peek fun _ => .choose (ih.block place) <| .orElse (leaveLoop_rescales place fun _ _ => rfl) <|
    .orElse (leaveLoop_rescales place fun _ _ => rfl) <| .orElse assembly_rescales <| .orElse (ih.branch place) <|
    .orElse (ih.forLoop place) <| .orElse (ih.whileLoop place) <| .orElse (returnStatement_rescales n place) <|
    .orElse (declaration_rescales n) (evaluation_rescales n)

theorem succ : StatementsRescale env scaling (n + 1) where
  statement := ih.statement_step
  block := ih.block_step
  items := ih.items_step
  branch := ih.branch_step
  loopBody place := .bind .scope fun s => ih.block { place with loop := some s.height }
  whileLoop := ih.whileLoop_step
  forLoop := ih.forLoop_step

end StatementsRescale

theorem statementsRescale (env : Env) (scaling : Scaling) (n : Nat) : StatementsRescale env scaling n := by
  induction n with
  | zero => constructor <;> intros <;> exact .exhausted
  | succ n ih => exact ih.succ

theorem params_rescales (c : Checkpoint) (n : Nat) (seen : List Bytes) :
    Rescales env scaling id (params c n seen) := by
  induction n generalizing seen with
  | zero => exact .exhausted
  | succ n ih =>
    refine .skipped <| .whether (.pure rfl) <| .after (.orReject .dataType) fun ty => .choose .reject <|
      .after .peek fun code => ?_
    have continued (found : Option Bytes) : Rescales env scaling id (laterParams c n seen ty found) := by
      refine .after .test fun _ => .choose (.after .peek fun _ => .choose .reject ?_) ?_
      all_goals exact .after (ih _) fun _ => .pure rfl
    exact .choose (.after (.pure rfl) continued) <| .after .name fun _ => .choose .reject <| .skipped <|
      .after (.pure rfl) continued

theorem register_rescales (bodiless : f.body = none) (c : Checkpoint) :
    Rescales env scaling id (register f c) := by
  refine .bind .scope fun s => ?_
  rw [Scope.addFunction_rescaled bodiless]
  cases s.addFunction f with
  | ok extended => exact .setScope rfl
  | error => exact .reject

theorem exitFunction_rescales : Rescales env scaling id exitFunction := .update fun _ => rfl

theorem function_rescales (n : Nat) : Rescales env scaling id (function n) := by
  refine .after .checkpoint fun c => .after (.orReject .dataType) fun returns => .after .name fun name =>
    .choose .reject <| .after (.update fun _ => rfl) fun _ => .spaced <| .after (params_rescales c n []) fun both =>
    .skipped <| .whether ?_ <| .choose .reject ?_
  · exact .after (register_rescales rfl c) fun _ => exitFunction_rescales
  · refine .after (register_rescales rfl c) fun _ => .after (.update fun r => ?_) fun _ =>
      .bind (.orReject ((statementsRescale env scaling n).block _)) fun body => .after exitFunction_rescales fun _ =>
      .update fun r => ?_
    · change Reader.mk _ (defineParams (r.scope.rescaled scaling) both.1).enterFrame _ _ = _
      rw [Scope.defineParams_rescaled]
      rfl
    · change Reader.mk _ ((r.scope.rescaled scaling).implement name (body.rescaled scaling)) _ _ = _
      rw [Scope.implement_rescaled]
      rfl

theorem functions_rescales (depth n : Nat) : Rescales env scaling id (functions depth n) := by
  induction n with
  | zero => exact .exhausted
  | succ n ih =>
    exact .after .peek fun _ => .choose (.pure rfl) <| .after (function_rescales depth) fun _ => .skipped ih

end Rule

def Reply.parsed (source : Source) : Reply Unit → Parsed
  | .ok _ r => ⟨.ok ⟨r.scope.functions⟩, r.remarks.map source.warning⟩
  | .fail r =>
    ⟨.error ((r.failure? source).getD (source.diagnostic r.pos "invalid function definition")),
      r.remarks.map source.warning⟩
  | .exhausted => ⟨.error (source.diagnostic .start "invalid function definition"), []⟩

def Parsed.rescaled (scaling : Scaling) (parsed : Parsed) : Parsed :=
  { parsed with program := parsed.program.map (Program.rescaled scaling) }

theorem parse_eq (env : Env) :
    parse env = Reply.parsed env.source ((Rule.skip >>= fun _ =>
      Rule.functions env.source.depth (env.source.size + 1)) env {}) := rfl

theorem Reply.parsed_rescaled (source : Source) (scaling : Scaling) (reply : Reply Unit) :
    (reply.rescaled scaling id).parsed source = (reply.parsed source).rescaled scaling := by
  cases reply <;> rfl

theorem parse_rescaled (env : Env) (scaling origin : Scaling) :
    parse (env.scaled scaling) = (parse (env.scaled origin)).rescaled scaling := by
  rw [parse_eq, parse_eq, ← Reply.parsed_rescaled]
  refine congrArg (Reply.parsed env.source) ?_
  exact Rule.Mirrors.after .skip (fun _ => Rule.functions_rescales _ _) origin {}

structure Env.ScalesAlike (env : Env) (scaling origin : Scaling) : Prop where
  program : (parse (env.scaled scaling)).program =
    (parse (env.scaled origin)).program.map (Program.rescaled scaling)
  warnings : (parse (env.scaled scaling)).warnings = (parse (env.scaled origin)).warnings
  performs : ∀ callees view (e : Expr), (e.rescaled scaling).perform callees view = e.perform callees view
  evaluates : ∀ view (e : Expr), e.isPure = true → (e.rescaled scaling).eval view = e.eval view
  varying : ∀ pos op (pointer index : Expr), pointer.ty.deref.size = 2 → index.isConstant = false →
    Build.pointerArithmetic scaling pos op pointer index =
      .ok (Build.operation pos op pointer (scaling.double pos (Build.convert index .int)) pointer.ty)
  constant : ∀ pos op (pointer index : Expr), index.isConstant = true →
    Build.pointerArithmetic scaling pos op pointer index = Build.pointerArithmetic origin pos op pointer index ∧
      Build.index scaling pos pointer index = Build.index origin pos pointer index

/-- Reading with shifts and with products accepts the same sources with the same warnings. The programs differ only in how
indices are scaled, and they compute the same. -/
theorem scalings_agree (env : Env) (scaling origin : Scaling) : env.ScalesAlike scaling origin where
  program := congrArg Parsed.program (parse_rescaled env scaling origin)
  warnings := by
    rw [parse_rescaled env scaling origin]
    rfl
  performs callees view e := e.perform_rescaled callees view
  evaluates view e isPure := e.eval_rescaled isPure view
  varying pos op _ _ two varies := Build.pointerArithmetic_of_not_isConstant scaling pos op two varies
  constant pos op pointer _ fixed :=
    ⟨Build.pointerArithmetic_of_isConstant pos op pointer fixed scaling origin,
      Build.index_of_isConstant pos pointer fixed scaling origin⟩

def indexing : Env where
  source :=
    { lines := #["int f(int* p, int i) \x7b return p[i] + p[3]; \x7d"]
      origins := #["index.cb"] }
  settings := {}

def Program.returnedTexts (program : Program) : List Bytes :=
  program.functions.filterMap fun f =>
    match f.body with
    | some (.block _ [.ret _ (some e) _] _) => some e.text
    | _ => none

theorem scalings_agree_indexing :
    (parse (indexing.scaled .shift)).program.toOption.map Program.returnedTexts =
        some [("(*(p + (i << 1)) + *(p+6))" : Bytes)] ∧
      (parse (indexing.scaled .multiply)).program.toOption.map Program.returnedTexts =
        some [("(*(p + (i * 2)) + *(p+6))" : Bytes)] ∧
      indexing.ScalesAlike .multiply .shift :=
  ⟨by decide +kernel, by decide +kernel, scalings_agree indexing .multiply .shift⟩

end Cb
