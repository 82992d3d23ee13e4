import Cb.Proofs.RewrittenExpressions
import Cb.Proofs.StatementRules

/-! Statements of a source and of a rewritten one. -/

namespace Cb.Rule

open Rewriting

variable {w : Rewriting} {settings : Settings} {n k : Nat} {l : Last} {st : List Bracket} {c d : Checkpoint}

def ReadsStatement (w : Rewriting) (settings : Settings) (rule mirror : Rule Stmt) : Prop :=
  ∀ st, Tracks w settings (w.Level ⟨.start, st⟩) rule mirror (w.Reads (Stmt.relocated w.view) ⟨.start, st⟩)

theorem condition_tracks (n k : Nat) : Tracks w settings (w.Level ⟨.start, st⟩) (condition n c) (condition k d)
    (w.Reads (Expr.relocated w.view) ⟨.operand, st⟩) := by
  refine ((expressionsTrack w settings n k).expression st).orReject.read fun e mirrored same => ?_
  obtain ⟨pos, ty, _⟩ := Expr.relocated_keeps.alike same
  have finished (e mirrored : Expr) (same : mirrored.relocated w.view = e.relocated w.view) :
      Tracks w settings (w.Loose ⟨.operand, st⟩) (if e.ty = .flags then return e else reject c (.conditionType e.ty))
        (if mirrored.ty = .flags then return mirrored else reject d (.conditionType mirrored.ty))
        (w.Reads (Expr.relocated w.view) ⟨.operand, st⟩) := by
    obtain ⟨_, ty, _⟩ := Expr.relocated_keeps.alike same
    exact .ite (by rw [ty]) (.value same) .reject
  refine .ite (by rw [ty]) (.whenBuilt ?_ finished) (finished e mirrored same)
  rw [← Build.binary_relocated, ← Build.binary_relocated, Build.literal_relocated, Build.literal_relocated, same, pos,
    ty]

theorem leave_tracks {leave : Position → Int → Stmt} (place : Place) (listed : Reader.keywords.contains text = true)
    (moves : Last.start.behind (lower text) = .start)
    (relocates : ∀ pos bytes, (leave pos bytes).relocated w.view = leave (w.view pos) bytes) :
    ReadsStatement w settings (leaveLoop text reason leave place) (leaveLoop text reason leave place) := by
  intro st
  refine .checkpoint fun c d marks => .keyword .start listed moves <| .skip <| .expect ⟨.start, st⟩ rfl rfl ?_
  cases place.loop with
  | none => exact .reject
  | some height =>
    refine .scope fun s t scopes => .value ?_
    simp only [relocates, marks.view, Scope.bytesSince, scopes.stack]

theorem breakLoop_tracks (place : Place) : ReadsStatement w settings (breakLoop place) (breakLoop place) :=
  leave_tracks place rfl rfl fun _ _ => rfl

theorem continueLoop_tracks (place : Place) : ReadsStatement w settings (continueLoop place) (continueLoop place) :=
  leave_tracks place rfl rfl fun _ _ => rfl

theorem assembly_tracks : ReadsStatement w settings assembly assembly := fun _ => .checkpoint fun _ _ _ => .keyword_asm

theorem returnStatement_tracks (n k : Nat) (place : Place) :
    ReadsStatement w settings (returnStatement n place) (returnStatement k place) := by
  intro st
  refine .checkpoint fun c d marks => .keyword .start rfl rfl <| .skip ?_
  refine .ite Iff.rfl ?_ ?_
  · refine .expect ⟨.start, st⟩ rfl rfl <| .scope fun s t scopes => ?_
    refine .value ?_
    simp only [Stmt.relocated, marks.view, Scope.localBytes, scopes.stack, Option.map_none]
  · refine ((expressionsTrack w settings n k).expression st).orReject.read fun e mirrored same => .skip ?_
    have converted : (Build.implicit mirrored place.returns).map (Expr.relocated w.view) =
        (Build.implicit e place.returns).map (Expr.relocated w.view) := by
      rw [← Expr.relocated_keeps.implicit, ← Expr.relocated_keeps.implicit, same]
    refine .expect ⟨.start, st⟩ rfl rfl <| .whenBuilt converted fun e mirrored same => ?_
    refine .scope fun s t scopes => .value ?_
    simp only [Stmt.relocated, marks.view, Scope.localBytes, scopes.stack, Option.map_some, same]

theorem checkNewName_tracks (name : Bytes) : Tracks w settings (w.Loose ⟨l, st⟩) (checkNewName name c)
    (checkNewName name d) fun _ _ => w.Loose ⟨l, st⟩ := by
  refine .scope fun s t scopes => .ite (by rw [scopes.findVariable?_eq]) .reject ?_
  refine .scope fun s t scopes => .ite ?_ .reject (.pure fun r twin here => here)
  have known := congrArg Option.isSome (scopes.findFunction?_eq name)
  rw [Option.isSome_map, Option.isSome_map] at known
  rw [known]

theorem arrayDeclaration_tracks (n k : Nat) {name : Bytes} (unreserved : isReserved name = false) (element : Ty)
    (samePos : w.view d.pos = w.view c.pos) :
    Tracks w settings (w.Loose ⟨.start, st⟩) (arrayDeclaration n c name element) (arrayDeclaration k d name element)
      (w.Reads (Stmt.relocated w.view) ⟨.start, st⟩) := by
  refine .isOn fun answer => .ite Iff.rfl .reject <| .skip ?_
  refine ((expressionsTrack w settings n k).expression st).orReject.read fun length mirrored same => ?_
  obtain ⟨_, ty, isConstant, value⟩ := Expr.relocated_keeps.alike same
  simp only [ty, isConstant, value]
  refine .ite Iff.rfl .reject <| .ite Iff.rfl .reject <| .skip ?_
  refine .expect ⟨.operand, st⟩ rfl rfl <| .skip <| .expect ⟨.start, st⟩ rfl rfl ?_
  refine .scope fun s t scopes => ?_
  obtain ⟨storage, below⟩ := scopes.defined (show isReserved [] = false by decide) element (length.value * element.size)
  obtain ⟨offset, extended⟩ := below.defined unreserved element.ref element.ref.size
  refine .setScope extended <| .value ?_
  simp only [Stmt.relocated, Scope.defineVariable, samePos, storage, offset]

theorem declaration_tracks (n k : Nat) : ReadsStatement w settings (declaration n) (declaration k) := by
  intro st
  refine .checkpoint fun c d marks => dataType_tracks.orReject.bind fun ty mirrored => .assuming fun sameTy => ?_
  rw [sameTy]
  refine .ite Iff.rfl .reject <| (name_tracks _).bind fun name mirrored => .assuming fun sameName => ?_
  obtain ⟨rfl, unreserved⟩ := sameName
  refine (checkNewName_tracks _).bind fun _ _ => .skip ?_
  refine .choose ⟨.start, st⟩ rfl rfl (arrayDeclaration_tracks n k unreserved ty marks.view) ?_
  have finished (l : Last) (init initToo : Option Expr)
      (same : initToo.map (Expr.relocated w.view) = init.map (Expr.relocated w.view)) :
      Tracks w settings (w.Level ⟨l, st⟩)
        (declare c mirrored ty init) (declare d mirrored ty initToo) (w.Reads (Stmt.relocated w.view) ⟨.start, st⟩) := by
    refine .expect ⟨.start, st⟩ rfl rfl <| .scope fun s t scopes => ?_
    obtain ⟨offset, extended⟩ := scopes.defined unreserved ty ty.size
    refine .setScope extended <| .value ?_
    simp only [Stmt.relocated, Scope.defineVariable, marks.view, offset, same]
  refine .choose ⟨.start, st⟩ rfl rfl (.skip ?_) (finished .declared none none rfl)
  refine ((expressionsTrack w settings n k).expression st).orReject.read fun e mirrored same => ?_
  have converted : (Build.implicit mirrored ty).map (Expr.relocated w.view) =
      (Build.implicit e ty).map (Expr.relocated w.view) := by
    rw [← Expr.relocated_keeps.implicit, ← Expr.relocated_keeps.implicit, same]
  refine .whenBuilt converted fun e mirrored same => .skip ?_
  exact finished .operand (some e) (some mirrored) (congrArg some same)

theorem evaluation_tracks (n k : Nat) : ReadsStatement w settings (evaluation n) (evaluation k) := by
  intro st
  refine .checkpoint fun c d marks => ((expressionsTrack w settings n k).expression st).read fun e mirrored same => ?_
  refine .skip <| .expect ⟨.start, st⟩ rfl rfl <| .value ?_
  simp only [Stmt.relocated, marks.view, same]

theorem initializer_tracks (n k : Nat) : Tracks w settings (w.Level ⟨.start, st⟩) (initializer n c) (initializer k d)
    (w.Reads (Option.map (Stmt.relocated w.view)) ⟨.start, st⟩) := by
  refine .choose ⟨.start, st⟩ rfl rfl (.value rfl) ?_
  refine .optional declaration_settles declaration_settles (declaration_tracks n k st) (fun s mirrored => ?_) ?_
  · exact .assuming fun same => .value (congrArg some same)
  · refine ((expressionsTrack w settings n k).expression st).orReject.read fun e mirrored same => .skip ?_
    refine .expect ⟨.start, st⟩ rfl rfl <| .value ?_
    have pos := (Expr.relocated_keeps.alike same).1
    simp only [Option.map_some, Stmt.relocated, pos, same]

theorem loopCondition_tracks (n k : Nat) :
    Tracks w settings (w.Level ⟨.start, st⟩) (loopCondition n c) (loopCondition k d)
      (w.Reads (Option.map (Expr.relocated w.view)) ⟨.start, st⟩) := by
  refine .choose ⟨.start, st⟩ rfl rfl (.value rfl) ?_
  refine (condition_tracks n k).read fun e mirrored same => .skip ?_
  exact .expect ⟨.start, st⟩ rfl rfl <| .value (congrArg some same)

theorem incrementer_tracks (n k : Nat) :
    Tracks w settings (w.Level ⟨.start, .head :: st⟩) (incrementer n c) (incrementer k d)
      (w.Reads (Option.map (Expr.relocated w.view)) ⟨.start, st⟩) := by
  refine .ahead rfl ?_ ?_
  · exact .expect ⟨.start, st⟩ rfl rfl <| .value rfl
  · refine ((expressionsTrack w settings n k).expression (.head :: st)).orReject.read fun e mirrored same => .skip ?_
    exact .expect ⟨.start, st⟩ rfl rfl <| .value (congrArg some same)

theorem exitBlock_tracks : Tracks w settings (w.Loose ⟨l, st⟩) exitBlock exitBlock
    fun bytes mirrored r twin => mirrored = bytes ∧ w.Loose ⟨l, st⟩ r twin := by
  refine .scope fun s t scopes => ?_
  obtain ⟨bytes, remaining⟩ := scopes.exited .blockMark
  exact .setScope remaining <| .pure fun r twin here => ⟨bytes, here⟩

structure StatementsTrack (w : Rewriting) (settings : Settings) (n k : Nat) : Prop where
  statement : ∀ place, ReadsStatement w settings (statement n place) (statement k place)
  block : ∀ place, ReadsStatement w settings (block n place) (block k place)
  items : ∀ place c d terminated warned st, Tracks w settings (w.Level ⟨.start, st⟩) (items n place c terminated warned)
    (items k place d terminated warned) (w.Reads (List.map (Stmt.relocated w.view)) ⟨.start, st⟩)
  branch : ∀ place, ReadsStatement w settings (branch n place) (branch k place)
  loopBody : ∀ place, ReadsStatement w settings (loopBody n place) (loopBody k place)
  whileLoop : ∀ place, ReadsStatement w settings (whileLoop n place) (whileLoop k place)
  forLoop : ∀ place, ReadsStatement w settings (forLoop n place) (forLoop k place)

section

variable (reads : StatementsTrack w settings n k)

include reads

theorem statement_tracks (place : Place) :
    ReadsStatement w settings (statement (n + 1) place) (statement (k + 1) place) := by
  intro st
  have settle := statementsSettle ⟨w.source, settings⟩ n
  have settleToo := statementsSettle ⟨w.other, settings⟩ k
  refine .ahead rfl (reads.block place st) ?_
  exact .orElse (breakLoop_settles place) (breakLoop_settles place) (breakLoop_tracks place st) <|
    .orElse (continueLoop_settles place) (continueLoop_settles place) (continueLoop_tracks place st) <|
    .orElse (assembly_settles place) (assembly_settles place) (assembly_tracks st) <|
    .orElse (settle.branch place) (settleToo.branch place) (reads.branch place st) <|
    .orElse (settle.forLoop place) (settleToo.forLoop place) (reads.forLoop place st) <|
    .orElse (settle.whileLoop place) (settleToo.whileLoop place) (reads.whileLoop place st) <|
    .orElse (returnStatement_settles place) (returnStatement_settles place) (returnStatement_tracks n k place st) <|
    .orElse declaration_settles declaration_settles (declaration_tracks n k st) (evaluation_tracks n k st)

theorem block_tracks (place : Place) : ReadsStatement w settings (block (n + 1) place) (block (k + 1) place) := by
  intro st
  refine .checkpoint fun c d marks => .choose ⟨.start, st⟩ rfl rfl ?_ ?_
  · exact .pure fun r twin here => ⟨by simp only [Stmt.relocated, marks.view, Stmt.relocatedAll_eq, List.map_nil], here⟩
  have finished (body bodyToo : List Stmt)
      (same : bodyToo.map (Stmt.relocated w.view) = body.map (Stmt.relocated w.view)) :
      Tracks w settings (w.Loose ⟨.start, st⟩) (do return .block c.pos body (← exitBlock))
        (do return .block d.pos bodyToo (← exitBlock)) (w.Reads (Stmt.relocated w.view) ⟨.start, st⟩) := by
    refine exitBlock_tracks.bind fun bytes mirrored => .assuming fun sameBytes => .value ?_
    simp only [Stmt.relocated, Stmt.relocatedAll_eq, marks.view, same, sameBytes]
  refine .choose ⟨.start, st⟩ rfl rfl ?_ ?_
  · refine .update (fun r twin here => ⟨here.alike, here.scopes.pushed rfl⟩) <| .skip ?_
    exact (reads.items place c d false false st).read finished
  · have entered {r twin : Reader} (here : w.Level ⟨.start, st⟩ r twin) : w.Level ⟨.start, st⟩
        { r with scope := r.scope.enterBlock } { twin with scope := twin.scope.enterBlock } :=
      ⟨⟨here.alike, here.scopes.pushed rfl⟩, here.shown, here.shownToo⟩
    refine .update (fun _ _ => entered) ?_
    exact (reads.statement place st).orRestore.read fun s mirrored same =>
      finished [s] [mirrored] (congrArg (fun s => [s]) same)

theorem items_tracks (place : Place) (c d : Checkpoint) (terminated warned : Bool) (st : List Bracket) :
    Tracks w settings (w.Level ⟨.start, st⟩) (items (n + 1) place c terminated warned)
      (items (k + 1) place d terminated warned) (w.Reads (List.map (Stmt.relocated w.view)) ⟨.start, st⟩) := by
  refine .choose ⟨.start, st⟩ rfl rfl (.value rfl) ?_
  refine .ahead rfl .reject ?_
  refine .position (fun _ _ => id) fun pos posToo _ =>
    (reads.statement place st).orRestore.read fun s mirrored same => ?_
  have terminates : mirrored.terminates = s.terminates := by
    rw [← Stmt.terminates_relocated, same, Stmt.terminates_relocated]
  have finished : Tracks w settings (w.Loose ⟨.start, st⟩)
      (laterItems n place c terminated s) (laterItems k place d terminated mirrored)
      (w.Reads (List.map (Stmt.relocated w.view)) ⟨.start, st⟩) := by
    rw [laterItems, laterItems, terminates]
    refine .skip <| (reads.items place c d _ terminated st).read fun rest restToo sameRest => ?_
    exact .pure fun r twin here => ⟨by rw [List.map_cons, List.map_cons, same, sameRest], here⟩
  exact .ite Iff.rfl (.warn finished) finished

theorem branch_tracks (place : Place) : ReadsStatement w settings (branch (n + 1) place) (branch (k + 1) place) := by
  intro st
  refine .checkpoint fun c d marks => .keyword .control rfl rfl <| .skip ?_
  refine .expect ⟨.start, .head :: st⟩ rfl rfl <| .skip ?_
  refine (condition_tracks n k).read fun e mirrored sameCondition => .skip ?_
  refine .expect ⟨.start, st⟩ rfl rfl <| .skip ?_
  refine (reads.block place st).orReject.read fun yes yesToo sameYes => .marked fun mark mirror => ?_
  refine .whetherSpelled .start rfl rfl (.skip ?_) ?_
  · refine (reads.block place st).orReject.read fun no noToo sameNo => .value ?_
    simp only [Stmt.relocated, Option.map_some, marks.view, sameCondition, sameYes, sameNo]
  · refine .value ?_
    simp only [Stmt.relocated, Option.map_some, marks.view, sameCondition, sameYes]

theorem loopBody_tracks (place : Place) :
    ReadsStatement w settings (loopBody (n + 1) place) (loopBody (k + 1) place) := by
  intro st
  refine .scope fun s t scopes => ?_
  have height : t.height = s.height := by rw [Scope.height, Scope.height, scopes.stack]
  rw [height]
  exact reads.block _ st

theorem whileLoop_tracks (place : Place) :
    ReadsStatement w settings (whileLoop (n + 1) place) (whileLoop (k + 1) place) := by
  intro st
  refine .checkpoint fun c d marks => .keyword .control rfl rfl <| .skip ?_
  refine .expect ⟨.start, .head :: st⟩ rfl rfl <| .skip ?_
  refine (condition_tracks n k).read fun e mirrored sameCondition => .skip ?_
  refine .expect ⟨.start, st⟩ rfl rfl <| .skip ?_
  refine (reads.loopBody place st).orReject.read fun body bodyToo sameBody => .value ?_
  simp only [Stmt.relocated, Option.map_some, marks.view, sameCondition, sameBody]

theorem forLoop_tracks (place : Place) : ReadsStatement w settings (forLoop (n + 1) place) (forLoop (k + 1) place) := by
  intro st
  refine .checkpoint fun c d marks => .keyword .control rfl rfl <| .skip ?_
  refine .expect ⟨.start, .head :: st⟩ rfl rfl <| .skip ?_
  refine .scope fun s t scopes => ?_
  have height : t.height = s.height := by rw [Scope.height, Scope.height, scopes.stack]
  refine (initializer_tracks n k).read fun init initToo sameInit => .skip ?_
  refine (loopCondition_tracks n k).read fun e mirrored sameCondition => .skip ?_
  refine (incrementer_tracks n k).read fun post postToo samePost => .skip ?_
  refine (reads.loopBody place st).orReject.read fun body bodyToo sameBody => ?_
  refine .scope fun s t scopes => ?_
  refine .update (fun r twin here => ⟨here.alike, marks.rewinds _ _ here.scopes⟩) <| .value ?_
  cases init <;> cases initToo <;> try cases sameInit
  · simp only [Stmt.relocated, marks.view, sameCondition, samePost, sameBody, height, Scope.bytesSince, scopes.stack]
  · have sameInit := Option.some.inj sameInit
    simp only [Stmt.relocated, marks.view, sameInit, sameCondition, samePost, sameBody, height, Scope.bytesSince,
      scopes.stack]

end

theorem StatementsTrack.succ (reads : StatementsTrack w settings n k) : StatementsTrack w settings (n + 1) (k + 1) where
  statement := statement_tracks reads
  block := block_tracks reads
  items := items_tracks reads
  branch := branch_tracks reads
  loopBody := loopBody_tracks reads
  whileLoop := whileLoop_tracks reads
  forLoop := forLoop_tracks reads

theorem statementsTrack (w : Rewriting) (settings : Settings) (n k : Nat) : StatementsTrack w settings n k := by
  induction n generalizing k with
  | zero => constructor <;> intros <;> first | exact .exhausted | exact fun _ => .exhausted
  | succ n ih =>
    cases k with
    | zero => constructor <;> intros <;> first | exact .exhaustedToo | exact fun _ => .exhaustedToo
    | succ k => exact (ih k).succ

end Cb.Rule
