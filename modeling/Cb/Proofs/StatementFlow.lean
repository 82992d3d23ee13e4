import Cb.Proofs.BodyLines

/-! The code of accepted statements keeps the stack pointer right below the locals in scope. -/

namespace Cb

namespace Item

variable {popped : Bytes → Int} {levels : Levels}

variable {i : Instr}

theorem not_setsBase_of_plain (plain : i.isPlain = true) : (Item.instr i).setsBase = false := by
  refine decide_eq_false fun same => ?_
  cases same
  cases plain

theorem not_restoresBase_of_plain (plain : i.isPlain = true) : (Item.instr i).restoresBase = false := by
  refine decide_eq_false fun same => ?_
  cases same
  cases plain

theorem fits_plain (plain : i.isPlain = true) (level : Option Int) : (Item.instr i).Fits levels level := by
  refine ⟨?_, ?_, ?_⟩
  · rintro l (isLabel | jumps) d _
    · cases isLabel
    · rw [target?_of_plain plain] at jumps
      cases jumps
  · intro restores
    rw [not_restoresBase_of_plain plain] at restores
    cases restores
  · intro sets
    rw [not_setsBase_of_plain plain] at sets
    cases sets

theorem falls_of_plain (plain : i.isPlain = true) : (Item.instr i).falls = true := by
  cases i <;> first | rfl | cases plain

end Item

namespace Flows

variable {popped : Bytes → Int} {levels : Levels} (ctx : Lower.Context)

theorem comment (text : Bytes) (level : Option Int) : Flows popped levels level (ctx.comment text) level := by
  simp only [Lower.Context.comment]
  split
  · refine ⟨⟨?_, by rintro ⟨⟩, by rintro ⟨⟩⟩, ?_⟩
    · rintro l (isLabel | jumps) <;> contradiction
    · simp [Item.after, Item.setsBase, Item.falls, Item.stackEffect, Flows]
  · rfl

theorem code (shifts : Shifts popped change instrs) (level : Int) :
    Flows popped levels (some level) (ctx.code instrs) (some (level + change)) := by
  obtain ⟨plain, rfl⟩ := shifts
  induction instrs generalizing level with
  | nil => simp [Lower.Context.code, Flows]
  | cons i rest ih =>
    have here := plain i (by simp)
    refine ⟨Item.fits_plain here _, ?_⟩
    rw [Item.after_falls (Item.falls_of_plain here) (Item.not_setsBase_of_plain here) nofun]
    have later := ih (level + i.stackEffect popped) fun other member => plain other (by simp [member])
    rw [netEffect_cons, ← Int.add_assoc]
    exact later

theorem level (shifts : Shifts popped 0 instrs) (level : Int) :
    Flows popped levels (some level) (ctx.code instrs) (some level) := by
  have computed : Flows popped levels (some level) (ctx.code instrs) (some (level + 0)) := code ctx shifts level
  rwa [Int.add_zero] at computed

variable {l : Label} {level : Int}

theorem jump {level : Option Int} (agrees : ∀ d ∈ level, levels l = some d) :
    Flows popped levels level (ctx.code [.jump l]) none := by
  refine ⟨⟨?_, nofun, nofun⟩, rfl⟩
  rintro other (isLabel | jumps) d here
  · cases isLabel
  · cases jumps
    exact agrees d here

theorem label {level : Option Int} (agrees : ∀ d ∈ level, levels l = some d) :
    Flows popped levels level [ctx.label l] (levels l) := by
  refine ⟨⟨?_, nofun, nofun⟩, rfl⟩
  rintro other (isLabel | jumps) d here
  · cases isLabel
    exact agrees d here
  · cases jumps

theorem enter (known : levels l = some level) (stopped : Bool) :
    Flows popped levels (if stopped then none else some level) [ctx.label l] (some level) := by
  have labelled : Flows popped levels (if stopped then none else some level) [ctx.label l] (levels l) := by
    refine label ctx fun d here => ?_
    cases stopped with
    | true => cases here
    | false =>
      cases here
      exact known
  rwa [known] at labelled

theorem join (known : levels l = if first && second then none else some level) :
    Flows popped levels (if second then none else some level) [ctx.label l]
      (if first && second then none else some level) := by
  rw [← known]
  refine label ctx fun d here => ?_
  cases second with
  | true => cases here
  | false =>
    cases here
    rw [known, Bool.and_false]
    rfl

theorem jumpBack (known : levels l = some level) (stopped : Bool) :
    Flows popped levels (if stopped then none else some level) (ctx.code [.jump l]) none := by
  refine jump ctx fun d here => ?_
  cases stopped with
  | true => cases here
  | false =>
    cases here
    exact known

theorem jumpIf (agrees : levels l = some level) :
    Flows popped levels (some level) (ctx.code [.jumpIf op l]) (some level) := by
  refine ⟨⟨?_, nofun, nofun⟩, by simp [Item.after, Item.setsBase, Item.falls, Item.stackEffect, Instr.stackEffect, Flows]⟩
  rintro other (isLabel | jumps) d here
  · cases isLabel
  · cases jumps
    cases here
    exact agrees

theorem release (nonneg : 0 ≤ bytes) (level : Int) :
    Flows popped levels (some level) (ctx.code (Lower.release bytes)) (some (level + bytes)) := by
  simp only [Lower.release]
  split
  · exact code ctx (.single rfl) level
  · rw [show bytes = 0 by omega, Int.add_zero]
    rfl

theorem epilogue (paramBytes : Nat) : Flows popped levels (some 0) (ctx.code (Lower.epilogue paramBytes)) none := by
  refine ⟨⟨?_, ?_, nofun⟩, ⟨?_, nofun, nofun⟩, rfl⟩
  · rintro l (isLabel | jumps) <;> contradiction
  · rintro _ d ⟨rfl⟩
    rfl
  · rintro l (isLabel | jumps) <;> contradiction

end Flows

namespace Lower

theorem test_flows (balance : CallsBalance popped known) (typed : ∀ e ∈ condition, Typed known e ∧ e.ty = .flags)
    (site : Site) {level : Int} (levelYes : levels (site.label yes) = some level)
    (levelNo : levels (site.label no) = some level) :
    Flows popped levels (some level) (site.test condition yes no) none := by
  have otherwise (reached : Option Int) (same : ∀ d ∈ reached, d = level) :
      Flows popped levels reached (site.ctx.code [.jump (site.label no)]) none :=
    .jump site.ctx fun d here => by rw [levelNo, same d here]
  rw [Site.test, Context.code_append]
  rcases conditionalJump_cases balance typed (site.label yes) with decided | refuted | ⟨code, op, compared, shifts⟩
  · rw [decided]
    refine (Flows.jump site.ctx fun d here => ?_).append (otherwise none (by simp))
    rw [levelYes, Option.some.inj here]
  · rw [refuted]
    exact otherwise _ fun d here => (Option.some.inj here).symm
  · rw [compared, Context.code_append]
    exact ((Flows.level site.ctx shifts level).append (.jumpIf site.ctx levelYes)).append
      (otherwise _ fun d here => (Option.some.inj here).symm)

end Lower

def Levels.AgreeOn (levels other : Levels) (low high : Nat) : Prop :=
  ∀ l : Label, low < l.number → l.number ≤ high → other l = levels l

def Levels.around (number : Nat) (own : LabelRole → Option Int) (inner : Levels) : Levels := fun l =>
  if l.number = number then own l.role else inner l

def Levels.before (bound : Nat) (first second : Levels) : Levels := fun l =>
  if l.number ≤ bound then first l else second l

namespace Levels.AgreeOn

variable {levels other first second : Levels} {low high bound : Nat}

theorem own {site : Lower.Site} (agree : (Levels.around (site.labels + 1) roles nested).AgreeOn other site.labels high)
    (grows : site.labels + 1 ≤ high) (role : LabelRole) : other (site.label role) = roles role := by
  rw [agree (site.label role) (Nat.lt_succ_self _) grows]
  exact if_pos rfl

theorem inner {inner : Levels} (agree : (Levels.around (low + 1) roles inner).AgreeOn other low high) :
    inner.AgreeOn other (low + 1) high := by
  intro l above below
  rw [agree l (by omega) below]
  exact if_neg (by omega)

theorem left (agree : (Levels.before bound first second).AgreeOn other low high) (fits : bound ≤ high) :
    first.AgreeOn other low bound := by
  intro l above below
  rw [agree l above (by omega)]
  exact if_pos below

theorem right (agree : (Levels.before bound first second).AgreeOn other low high) (fits : low ≤ bound) :
    second.AgreeOn other bound high := by
  intro l above below
  rw [agree l (by omega) below]
  exact if_neg (by omega)

end Levels.AgreeOn

namespace Lower

def LoopLevels (site : Site) (loop : Option (List Declaration)) (levels : Levels) : Prop :=
  ∀ outer ∈ loop, localsBytes outer ≤ localsBytes site.locals ∧ ∃ labels, site.ctx.loop = some labels ∧
    levels labels.breaks = some (-localsBytes outer) ∧ levels labels.continues = some (-localsBytes outer)

structure Levelled (popped : Bytes → Int) (levels : Levels) (site : Site) (body : List Stmt) : Prop where
  whole : Flows popped levels (some (-localsBytes site.locals)) (site.emittedAll body).lines
    (if (site.emittedAll body).terminates then none else some (-localsBytes (Stmt.declared body ++ site.locals)))
  parts : ∀ {before : List Line} {inner : Site} {t : Stmt}, Part site body before inner t →
    Flows popped levels (some (-localsBytes site.locals)) before (some (-localsBytes inner.locals))

def Balanced (popped : Bytes → Int) (loop : Option (List Declaration)) (site : Site) (body : List Stmt) : Prop :=
  ∃ levels : Levels, ∀ other : Levels, levels.AgreeOn other site.labels (site.emittedAll body).labels →
    LoopLevels site loop other → Levelled popped other site body

theorem Levelled.closed (levelled : Levelled popped levels site [s]) (closed : s.declares = []) :
    Flows popped levels (some (-localsBytes site.locals)) (site.emitted s).lines
      (if (site.emitted s).terminates then none else some (-localsBytes site.locals)) := by
  have whole := levelled.whole
  rwa [site.emittedAll_singleton, Stmt.declared_singleton, closed] at whole

namespace Balanced

variable {popped : Bytes → Int} {loop : Option (List Declaration)} {site : Site}

variable {levels : Levels} {condition : Option Expr} {level : Int} {s yes : Stmt} {outer : List Declaration}
  {entry : Declaration}

theorem single (levels : Levels)
    (levelled : ∀ other : Levels, levels.AgreeOn other site.labels (site.emitted s).labels → LoopLevels site loop other →
      Flows popped other (some (-localsBytes site.locals)) (site.emitted s).lines
          (if (site.emitted s).terminates then none else some (-localsBytes (s.declares ++ site.locals))) ∧
        ∀ {before : List Line} {inner : Site} {t : Stmt}, Part site [s] before inner t →
          Flows popped other (some (-localsBytes site.locals)) before (some (-localsBytes inner.locals))) :
    Balanced popped loop site [s] := by
  rw [← site.emittedAll_singleton] at levelled
  refine ⟨levels, fun other agree inLoop => ?_⟩
  obtain ⟨whole, parts⟩ := levelled other agree inLoop
  exact ⟨whole, parts⟩

theorem of_single (balanced : Balanced popped loop site [s]) :
    ∃ levels : Levels, ∀ other : Levels, levels.AgreeOn other site.labels (site.emitted s).labels →
      LoopLevels site loop other → Levelled popped other site [s] := by
  rw [← site.emittedAll_singleton]
  exact balanced

theorem nil : Balanced popped loop site [] := by
  refine ⟨fun _ => none, fun other _ _ => ⟨?_, nofun⟩⟩
  simp [Flows, Stmt.declared]

theorem cons (first : Balanced popped loop site [s]) (others : Balanced popped loop (site.following s) rest)
    (nonneg : 0 ≤ localsBytes s.declares) : Balanced popped loop site (s :: rest) := by
  obtain ⟨levels, levelled⟩ := first.of_single
  obtain ⟨levelsRest, levelledRest⟩ := others
  cases goes : (site.emitted s).terminates with
  | true =>
    have shape := site.emittedAll_of_terminates goes rest
    refine ⟨levels, fun other agree inLoop => ?_⟩
    rw [shape] at agree
    obtain ⟨whole, parts⟩ := levelled other agree inLoop
    rw [Site.emittedAll_singleton, goes] at whole
    refine ⟨by rwa [shape, goes], fun part => ?_⟩
    rcases part.first_or_later with isFirst | ⟨never, _⟩
    · exact parts isFirst
    · rw [goes] at never
      cases never
  | false =>
    have shape := site.emittedAll_of_goes goes rest
    refine ⟨.before (site.emitted s).labels levels levelsRest, fun other agree inLoop => ?_⟩
    rw [shape] at agree
    obtain ⟨whole, parts⟩ := levelled other (agree.left ((site.following s).growsAll rest)) inLoop
    rw [Site.emittedAll_singleton, goes, Stmt.declared_singleton] at whole
    have inLoopRest : LoopLevels (site.following s) loop other := by
      intro outer isLoop
      obtain ⟨below, labels⟩ := inLoop outer isLoop
      refine ⟨?_, labels⟩
      simp only [Site.following, localsBytes_append]
      omega
    obtain ⟨wholeRest, partsRest⟩ := levelledRest other (agree.right (site.grows s)) inLoopRest
    refine ⟨?_, fun part => ?_⟩
    · rw [shape, Stmt.declared, List.append_assoc]
      exact whole.append wholeRest
    · rcases part.first_or_later with isFirst | ⟨_, rear, rfl, isLater⟩
      · exact parts isFirst
      · exact whole.append (partsRest isLater)

theorem simple (simple : s.isSimple = true) (flows : ∀ levels, LoopLevels site loop levels →
      Flows popped levels (some (-localsBytes site.locals)) (site.emitted s).lines
        (if (site.emitted s).terminates then none else some (-localsBytes (s.declares ++ site.locals)))) :
    Balanced popped loop site [s] := by
  refine single (fun _ => none) fun other _ inLoop => ⟨flows other inLoop, fun part => ?_⟩
  obtain ⟨rfl, rfl, _⟩ := part.simple simple
  rfl

theorem leave {l : Label} (cleans : site.ctx.cleanupOnBreak = true) (isSimple : s.isSimple = true)
    (shape : site.emitted s = site.leave text (localsBytes site.locals - localsBytes outer) l)
    (found : ∀ levels, LoopLevels site (some outer) levels → levels l = some (-localsBytes outer)) :
    Balanced popped (some outer) site [s] := by
  refine simple isSimple fun levels inLoop => ?_
  have below := (inLoop outer rfl).1
  rw [shape, Site.leave, Site.beforeLeave, cleans]
  refine ((Flows.comment site.ctx _ _).append (.release site.ctx (by omega) _)).append (.jump site.ctx fun d here => ?_)
  rw [found levels inLoop, ← Option.some.inj here]
  congr 1
  omega

theorem breakLoop (cleans : site.ctx.cleanupOnBreak = true) (inLoop : site.ctx.loop.isSome = true) (pos : Position) :
    Balanced popped (some outer) site [.breakLoop pos (localsBytes site.locals - localsBytes outer)] := by
  obtain ⟨labels, isLoop⟩ := Option.isSome_iff_exists.mp inLoop
  refine leave cleans rfl (site.emitted_breakLoop isLoop pos _) fun levels found => ?_
  obtain ⟨_, same, isSame, breaks, _⟩ := found outer rfl
  cases isLoop.symm.trans isSame
  exact breaks

theorem continueLoop (cleans : site.ctx.cleanupOnBreak = true) (inLoop : site.ctx.loop.isSome = true) (pos : Position) :
    Balanced popped (some outer) site [.continueLoop pos (localsBytes site.locals - localsBytes outer)] := by
  obtain ⟨labels, isLoop⟩ := Option.isSome_iff_exists.mp inLoop
  refine leave cleans rfl (site.emitted_continueLoop isLoop pos _) fun levels found => ?_
  obtain ⟨_, same, isSame, _, continues⟩ := found outer rfl
  cases isLoop.symm.trans isSame
  exact continues

theorem evaluate (lowers : e.Lowers popped) (pos : Position) : Balanced popped loop site [.evaluate pos e] := by
  refine simple rfl fun levels _ => ?_
  rw [site.emitted_evaluate]
  exact (Flows.comment site.ctx _ _).append (.level site.ctx lowers.level _)

theorem ret (lowers : ∀ e ∈ value, e.Lowers popped) (nonneg : 0 ≤ localsBytes site.locals) (pos : Position) :
    Balanced popped loop site [.ret pos value (localsBytes site.locals)] := by
  have computed : Shifts popped 0 (value.elim {} returnValue).code := by
    cases value with
    | none => exact .nil
    | some e => exact (returnValue_level (lowers e rfl)).2
  refine simple rfl fun levels _ => ?_
  rw [site.emitted_ret, Context.code_append, Context.code_append]
  have released : Flows popped levels (some (-localsBytes site.locals)) (site.ctx.code (release (localsBytes site.locals)))
      (some (-localsBytes site.locals + localsBytes site.locals)) := .release site.ctx nonneg _
  rw [Int.add_left_neg] at released
  exact (Flows.comment site.ctx _ _).append
    (((Flows.level site.ctx computed _).append released).append (.epilogue site.ctx _))

theorem declare (new : Declares frame site.locals entry) (lowers : ∀ e ∈ entry.init, e.Lowers popped) (pos : Position) :
    Balanced popped loop site [.declare pos entry] := by
  refine simple rfl fun levels _ => ?_
  rw [site.emitted_declare]
  have taken : Flows popped levels (some (-localsBytes site.locals)) (site.ctx.code (declaration entry).code)
      (some (-localsBytes site.locals + -entry.bytes)) := .code site.ctx (declaration_level new lowers).2 _
  rw [show -localsBytes site.locals + -entry.bytes = -localsBytes ((Stmt.declare pos entry).declares ++ site.locals) by
    simp only [Stmt.declares, List.cons_append, List.nil_append, localsBytes_cons]
    omega] at taken
  exact (Flows.comment site.ctx _ _).append taken

theorem block (inner : Balanced popped loop site.inBlock body) (nonneg : 0 ≤ localsBytes (Stmt.declared body))
    (pos : Position) :
    Balanced popped loop site [.block pos body (localsBytes (Stmt.declared body))] := by
  obtain ⟨levels, levelled⟩ := inner
  have shape := site.emitted_block pos body (localsBytes (Stmt.declared body))
  have sameLabels : (site.emitted (.block pos body (localsBytes (Stmt.declared body)))).labels =
      (site.inBlock.emittedAll body).labels := by
    rw [shape]
    split <;> rfl
  refine single levels fun other agree inLoop => ?_
  rw [sameLabels] at agree
  obtain ⟨whole, parts⟩ := levelled other agree inLoop
  refine ⟨?_, fun part => ?_⟩
  · rw [shape]
    simp only [localsBytes_append] at whole
    cases stops : (site.inBlock.emittedAll body).terminates with
    | true =>
      rw [stops] at whole
      rw [if_pos (by simp), stops]
      exact whole
    | false =>
      rw [stops] at whole
      split
      · rename_i nothing
        simp only [Bool.false_or, decide_eq_true_eq] at nothing
        rw [stops]
        rw [show localsBytes (Stmt.declared body) = 0 by omega, Int.zero_add] at whole
        exact whole
      · have given : Flows popped other (some (-(localsBytes (Stmt.declared body) + localsBytes site.locals)))
            (site.inBlock.ctx.code [.popBytes (localsBytes (Stmt.declared body))])
            (some (-(localsBytes (Stmt.declared body) + localsBytes site.locals) + localsBytes (Stmt.declared body))) :=
          .code site.inBlock.ctx (.single rfl) _
        rw [show -(localsBytes (Stmt.declared body) + localsBytes site.locals) + localsBytes (Stmt.declared body) =
          -localsBytes site.locals by omega] at given
        rw [stops]
        exact (whole.append (.comment site.inBlock.ctx _ _)).append given
  · cases part with
    | here => rfl
    | later _ part => cases part
    | block part => exact parts part

theorem beforeNo_flows (levelNo : levels (site.label .falseBranch) = some level)
    (levelEnd : (site.inside.emitted yes).terminates = false → levels (site.label .endIf) = some level) :
    Flows popped levels (if (site.inside.emitted yes).terminates then none else some level) (site.beforeNo yes)
      (some level) := by
  have entered : Flows popped levels none [site.ctx.label (site.label .falseBranch)] (some level) :=
    .enter site.ctx levelNo true
  refine Flows.append ?_ entered
  cases goes : (site.inside.emitted yes).terminates with
  | true => rfl
  | false =>
    refine Flows.jump site.ctx fun d here => ?_
    cases here
    exact levelEnd goes

theorem incrementer_flows {post : Option Expr} (lowers : ∀ e ∈ post, e.Lowers popped)
    (levelNext : levels (site.label .forIncrement) = some level)
    (levelTest : levels (site.label .forCondition) = some level) (stopped : Bool) :
    Flows popped levels (if stopped then none else some level)
      (site.ctx.label (site.label .forIncrement) ::
        (if post.isSome then site.ctx.comment "for incrementer" else [])
        ++ site.ctx.code ((post.elim {} expression).code ++ [.jump (site.label .forCondition)])) none := by
  have commented : Flows popped levels (some level) (if post.isSome then site.ctx.comment "for incrementer" else [])
      (some level) := by
    split
    · exact .comment site.ctx _ _
    · rfl
  have stepped : Flows popped levels (some level) (site.ctx.code (post.elim {} expression).code) (some level) := by
    cases post with
    | none => rfl
    | some e => exact .level site.ctx (lowers e rfl).level level
  rw [Context.code_append]
  exact (Flows.enter site.ctx levelNext stopped).append
    (commented.append (stepped.append (.jumpBack site.ctx levelTest false)))

theorem exitFor_flows (levelEnd : levels (site.label .forEnd) = some (-localsBytes inside))
    (below : localsBytes outer ≤ localsBytes inside) :
    Flows popped levels none
      (site.ctx.label (site.label .forEnd) ::
        (if 0 < localsBytes inside - localsBytes outer then
          site.ctx.comment ("exiting for, popping " ++ Bytes.ofInt (localsBytes inside - localsBytes outer) ++ " bytes")
        else [])
        ++ site.ctx.code (release (localsBytes inside - localsBytes outer))) (some (-localsBytes outer)) := by
  have released : Flows popped levels (some (-localsBytes inside))
      (site.ctx.code (release (localsBytes inside - localsBytes outer)))
      (some (-localsBytes inside + (localsBytes inside - localsBytes outer))) := .release site.ctx (by omega) _
  rw [show -localsBytes inside + (localsBytes inside - localsBytes outer) = -localsBytes outer by omega] at released
  refine (Flows.enter site.ctx levelEnd true).append (Flows.append ?_ released)
  split
  · exact .comment site.ctx _ _
  · rfl

variable {known : Vocabulary} (balance : CallsBalance popped known)
  (typed : ∀ e ∈ condition, Typed known e ∧ e.ty = .flags)

include balance typed

theorem tested {yes no : LabelRole} (levelYes : levels (site.label yes) = some level)
    (levelNo : levels (site.label no) = some level) :
    Flows popped levels (some level) (site.test condition yes no ++ [site.ctx.label (site.label yes)]) (some level) := by
  exact (test_flows balance typed site levelYes levelNo).append (.enter site.ctx levelYes true)

theorem beforeYes_flows (s : Stmt) (levelYes : levels (site.label .trueBranch) = some level)
    (levelNo : levels (site.label no) = some level) :
    Flows popped levels (some level) (site.beforeYes condition no s) (some level) := by
  rw [Site.beforeYes, List.append_assoc]
  exact (Flows.comment site.ctx _ _).append (tested balance typed levelYes levelNo)

theorem branch (closed : yes.declares = []) (inner : Balanced popped loop site.inside [yes]) (pos : Position) :
    Balanced popped loop site [.branch pos condition yes none] := by
  obtain ⟨levels, levelled⟩ := inner.of_single
  refine single (.around (site.labels + 1) (fun _ => some (-localsBytes site.locals)) levels) fun other agree inLoop => ?_
  rw [site.emitted_branch] at agree ⊢
  have own := agree.own (site.inside.grows yes)
  have before := beforeYes_flows balance typed (.branch pos condition yes none) (own .trueBranch) (own .endIf)
  have branchLevelled := levelled other agree.inner inLoop
  refine ⟨(before.append (branchLevelled.closed closed)).append (.enter site.ctx (own .endIf) _), fun part => ?_⟩
  cases part with
  | here => rfl
  | later _ part => cases part
  | yes part => exact before.append (branchLevelled.parts part)

theorem branchElse (closed : yes.declares = []) (closedElse : no.declares = [])
    (inner : Balanced popped loop site.inside [yes]) (other : Balanced popped loop (site.inElse yes) [no])
    (pos : Position) :
    Balanced popped loop site [.branch pos condition yes (some no)] := by
  obtain ⟨levels, levelled⟩ := inner.of_single
  obtain ⟨levelsElse, levelledElse⟩ := other.of_single
  have grows : site.labels + 1 ≤ (site.inside.emitted yes).labels := site.inside.grows yes
  have growsElse : (site.inside.emitted yes).labels ≤ ((site.inElse yes).emitted no).labels := (site.inElse yes).grows no
  -- The end is never reached when both parts stop.
  let roles : LabelRole → Option Int := fun role =>
    if role = .endIf ∧ ((site.inside.emitted yes).terminates && ((site.inElse yes).emitted no).terminates) = true
    then none else some (-localsBytes site.locals)
  refine single (.around (site.labels + 1) roles (.before (site.inside.emitted yes).labels levels levelsElse))
    fun others agree inLoop => ?_
  rw [site.emitted_branchElse] at agree ⊢
  have own := agree.own (Nat.le_trans grows growsElse)
  have before := beforeYes_flows balance typed (.branch pos condition yes (some no)) (own .trueBranch) (own .falseBranch)
  have yesLevelled := levelled others (agree.inner.left growsElse) inLoop
  have noLevelled := levelledElse others (agree.inner.right grows) inLoop
  have levelEnd : others (site.label .endIf) =
      if (site.inside.emitted yes).terminates && ((site.inElse yes).emitted no).terminates then none
      else some (-localsBytes site.locals) := by
    rw [own .endIf]
    simp [roles]
  have between : Flows popped others _ (site.beforeNo yes) _ := beforeNo_flows (own .falseBranch) fun goes => by
    rw [levelEnd, goes]
    rfl
  have beforeElse := (before.append (yesLevelled.closed closed)).append between
  refine ⟨?_, fun part => ?_⟩
  · exact (beforeElse.append (noLevelled.closed closedElse)).append (.join site.ctx levelEnd)
  · cases part with
    | here => rfl
    | later _ part => cases part
    | yesOr part => exact before.append (yesLevelled.parts part)
    | no part => exact beforeElse.append (noLevelled.parts part)

theorem whileLoop (closed : body.declares = []) (inner : Balanced popped (some site.locals) site.inWhile [body])
    (pos : Position) : Balanced popped loop site [.whileLoop pos condition body] := by
  obtain ⟨levels, levelled⟩ := inner.of_single
  refine single (.around (site.labels + 1) (fun _ => some (-localsBytes site.locals)) levels) fun other agree _ => ?_
  rw [site.emitted_whileLoop] at agree ⊢
  have own := agree.own (site.inWhile.grows body)
  have before : Flows popped other (some (-localsBytes site.locals))
      (site.beforeWhile condition (.whileLoop pos condition body)) (some (-localsBytes site.locals)) := by
    rw [Site.beforeWhile, List.append_assoc]
    exact (Flows.comment site.ctx _ _).append
      ((Flows.enter site.ctx (own .whileCondition) false).append (tested balance typed (own .whileBody) (own .whileEnd)))
  have bodyLevelled := levelled other agree.inner fun outer isLoop => by
    cases isLoop
    exact ⟨Int.le_refl _, _, rfl, own .whileEnd, own .whileCondition⟩
  refine ⟨?_, fun part => ?_⟩
  · refine ((before.append (bodyLevelled.closed closed)).append ?_).append (.enter site.ctx (own .whileEnd) true)
    exact .jumpBack site.ctx (own .whileCondition) _
  · cases part with
    | here => rfl
    | later _ part => cases part
    | whileBody part => exact before.append (bodyLevelled.parts part)

theorem beforeFor_flows {start : Int} {stopped : Bool} (s : Stmt)
    (first : Flows popped levels (some start) (site.inside.emittedAll init.toList).lines
      (if stopped then none else some level)) (levelTest : levels (site.label .forCondition) = some level)
    (levelBody : levels (site.label .forBody) = some level) (levelEnd : levels (site.label .forEnd) = some level) :
    Flows popped levels (some start) (site.beforeFor init condition s) (some level) := by
  have commented : Flows popped levels (some start) (if init.isSome then site.ctx.comment "for initializer" else [])
      (some start) := by
    split
    · exact .comment site.ctx _ _
    · rfl
  rw [Site.beforeFor, List.append_assoc, site.initializer_eq]
  exact (((Flows.comment site.ctx _ _).append (commented.append first)).append (.comment site.ctx _ _)).append
    ((Flows.enter site.ctx levelTest stopped).append (tested balance typed levelBody levelEnd))

theorem forLoop (first : Balanced popped loop site.inside init.toList)
    (nonneg : 0 ≤ localsBytes (Stmt.declared init.toList)) (lowers : ∀ e ∈ post, e.Lowers popped)
    (closed : body.declares = [])
    (inner : Balanced popped (some (Stmt.declared init.toList ++ site.locals)) (site.inFor init) [body]) (pos : Position) :
    Balanced popped loop site [.forLoop pos init condition post body
      (localsBytes (Stmt.declared init.toList ++ site.locals) - localsBytes site.locals)] := by
  obtain ⟨levels, levelled⟩ := first
  obtain ⟨levelsBody, levelledBody⟩ := inner.of_single
  have grows := site.grows_initializer init
  have growsBody : (site.initializer init).labels ≤ ((site.inFor init).emitted body).labels := (site.inFor init).grows body
  rw [← site.initializer_labels] at levelled
  refine single (.around (site.labels + 1) (fun _ => some (-localsBytes (Stmt.declared init.toList ++ site.locals)))
    (.before (site.initializer init).labels levels levelsBody)) fun other agree inLoop => ?_
  rw [site.emitted_forLoop] at agree ⊢
  have own := agree.own (Nat.le_trans grows growsBody)
  have initLevelled := levelled other (agree.inner.left growsBody) inLoop
  have bodyLevelled := levelledBody other (agree.inner.right grows) fun outer isLoop => by
    cases isLoop
    exact ⟨Int.le_refl _, _, rfl, own .forEnd, own .forIncrement⟩
  have before := beforeFor_flows balance typed (.forLoop pos init condition post body
    (localsBytes (Stmt.declared init.toList ++ site.locals) - localsBytes site.locals)) initLevelled.whole
    (own .forCondition) (own .forBody) (own .forEnd)
  refine ⟨?_, fun part => ?_⟩
  · refine ((before.append (bodyLevelled.closed closed)).append
      (incrementer_flows lowers (own .forIncrement) (own .forCondition) _)).append (exitFor_flows (own .forEnd) ?_)
    rw [localsBytes_append]
    omega
  · cases part with
    | here => rfl
    | later _ part => cases part
    | forInit part =>
      exact ((Flows.comment site.ctx _ _).append (.comment site.ctx _ _)).append (initLevelled.parts part)
    | forBody part => exact before.append (bodyLevelled.parts part)

end Balanced

end Lower

theorem Accepts.balanced {popped : Bytes → Int} {locals : List Declaration} (accepted : Accepts frame loop locals body)
    (balance : ∀ f ∈ frame.functions, popped f.name = 2 * f.params.length) (declared : Locals frame locals)
    (plain : Stmt.anyAssembly body = false) (site : Lower.Site) (same : site.locals = locals)
    (cleans : site.ctx.cleanupOnBreak = true) (inLoop : loop.isSome = true → site.ctx.loop.isSome = true) :
    Lower.Balanced popped loop site body := by
  have calls := Lower.CallsBalance.of_functions balance
  have lowers {inside : List Declaration} {e : Expr} (built : Built (frame.vocabulary inside) e) : e.Lowers popped :=
    built.typed.lowers (calls inside)
  induction accepted generalizing site with
  | nil => exact .nil
  | @cons loop locals s rest first others ihFirst ihOthers =>
    subst same
    simp only [Stmt.anyAssembly, Bool.or_eq_false_iff] at plain
    have opened := first.locals declared
    exact .cons (ihFirst declared (by rw [Stmt.anyAssembly_singleton, plain.1]) site rfl cleans inLoop)
      (ihOthers opened plain.2 (site.following s) rfl cleans inLoop) opened.newer_nonneg
  | breakLoop pos =>
    subst same
    exact .breakLoop cleans (inLoop rfl) pos
  | continueLoop pos =>
    subst same
    exact .continueLoop cleans (inLoop rfl) pos
  | assembly => cases plain
  | branch pos condition closed body ih =>
    subst same
    rw [Stmt.anyAssembly_singleton, Stmt.hasAssembly, Stmt.optionalAssembly, Bool.or_false,
      ← Stmt.anyAssembly_singleton] at plain
    exact .branch (calls _) condition.typed closed (ih declared plain site.inside rfl cleans inLoop) pos
  | @branchElse loop locals pos e yes no condition closed closedElse first other ihYes ihNo =>
    subst same
    simp only [Stmt.anyAssembly_singleton, Stmt.hasAssembly, Stmt.optionalAssembly, Bool.or_eq_false_iff] at plain ihYes ihNo
    exact .branchElse (calls _) condition.typed closed closedElse
      (ihYes declared plain.1 site.inside rfl cleans inLoop)
      (ihNo declared plain.2 (site.inElse yes) rfl cleans inLoop) pos
  | whileLoop pos condition closed body ih =>
    subst same
    rw [Stmt.anyAssembly_singleton, Stmt.hasAssembly, ← Stmt.anyAssembly_singleton] at plain
    exact .whileLoop (calls _) condition.typed closed
      (ih declared plain site.inWhile rfl cleans fun _ => rfl) pos
  | @forLoop loop locals inside pos init condition post body first opened test next closed inner ihFirst ihBody =>
    subst same opened
    simp only [Stmt.anyAssembly_singleton, Stmt.hasAssembly, Stmt.optionalAssembly_eq, Bool.or_eq_false_iff] at plain ihBody
    have inside := first.locals declared
    exact .forLoop (calls (Stmt.declared init.toList ++ site.locals))
      (fun e isTest => ⟨(test e isTest).1.typed, (test e isTest).2⟩)
      (ihFirst declared plain.1 site.inside rfl cleans inLoop) inside.newer_nonneg
      (fun e isPost => lowers (next e isPost)) closed
      (ihBody inside plain.2 (site.inFor init) rfl cleans fun _ => rfl) pos
  | @ret loop locals pos value typed =>
    subst same
    refine .ret (fun e isValue => ?_) declared.bytes_nonneg pos
    cases isValue
    exact lowers typed.1
  | declare pos new =>
    subst same
    refine .declare new (fun e isInit => ?_) pos
    cases new with
    | scalar _ _ initial => exact lowers (initial e isInit).1
    | array => cases isInit
  | block pos inner ih =>
    subst same
    rw [Stmt.anyAssembly_singleton, Stmt.hasAssembly] at plain
    exact .block (ih declared plain site.inBlock rfl cleans inLoop) (inner.locals declared).newer_nonneg pos
  | evaluate pos built => exact .evaluate (lowers built) pos

end Cb
