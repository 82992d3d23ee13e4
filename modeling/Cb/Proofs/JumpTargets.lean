import Cb.Proofs.LineTexts
import Cb.Proofs.Soundness

/-! Where jumps lead: every label is defined once, a jump stays in its procedure, and a statement that leaves
a round of a loop goes on at a label of the innermost loop around it. -/

namespace Cb

theorem Item.isLegible_of_isOrderly {item : Item} (orderly : item.isOrderly false paramBytes = true) :
    item.isLegible = true := by
  cases item with
  | instr i => exact isSound_of_isOrderly orderly
  | verbatim => cases orderly
  | label | comment | procedure | endProcedure | blank => rfl

theorem countP_isDefinedBy (legible : ∀ line ∈ lines, line.item.isLegible = true) (l : Label) :
    (lines.map Line.text).countP l.isDefinedBy = (definedLabels lines).count l := by
  rw [List.countP_map, definedLabels, List.count_filterMap]
  refine List.countP_congr fun line member => ?_
  rw [Function.comp_apply, Line.isDefinedBy_text_iff (legible line member)]
  cases line.item <;> simp [Item.label?]

namespace Lower

variable {settings : Settings} {needed : List Bytes} {labels : Nat} {f : Function} {body : Stmt} {raw : Bool}

theorem procedure_unique (settled : SettledBody raw settings labels f body)
    (l : Label) : (definedLabels (procedure settings labels f body).lines).count l ≤
      Label.between labels (procedure settings labels f body).labels l := by
  obtain ⟨inside, shape, tidy⟩ := procedure_lines settled
  have others : definedLabels (procedure settings labels f body).lines = definedLabels inside := by
    rw [shape, definedLabels_append, definedLabels_append]
    simp [definedLabels, Item.label?]
  rw [others]
  exact tidy.unique l

theorem functions_unique (settled : ∀ f ∈ list, ∀ body, f.body = some body → ∀ labels,
      SettledBody raw settings labels f body) (labels : Nat) :
    ∃ high, labels ≤ high ∧
      ∀ l, (definedLabels (functions settings needed labels list).lines).count l ≤ Label.between labels high l := by
  refine functions_induction settings needed list settled (fun labels => ⟨labels, Nat.le_refl labels, fun l => Nat.zero_le _⟩) (fun left others => ?_)
    (@fun labels f body _ implemented used first others => ?_) labels
  · rwa [functions_lines_of_left left]
  · obtain ⟨high, above, unique⟩ := others
    have grows := procedure_grows settings labels f body
    refine ⟨high, Nat.le_trans grows above, fun l => ?_⟩
    rw [functions_lines_of_used implemented used first.fine, definedLabels_append, List.count_append,
      ← Label.between_add grows above l]
    exact Nat.add_le_add (procedure_unique first l) (unique l)

theorem procedure_jump (settled : SettledBody raw settings labels f body)
    (shape : (procedure settings labels f body).lines = before ++ line :: after) (jumps : line.item.target? = some l) :
    ∃ early late, before = [⟨0, .comment f.text⟩, ⟨0, .procedure f.name⟩] ++ early ∧
      after = late ++ [⟨0, .endProcedure f.name⟩, ⟨0, .blank⟩] ∧
      (∀ other ∈ early ++ late, other.item.isOrderly raw f.paramBytes = true) ∧ l ∈ definedLabels (early ++ late) := by
  obtain ⟨inside, whole, tidy⟩ := procedure_lines settled
  rw [whole, List.append_assoc] at shape
  rcases append_split shape with ⟨rest, isFirst, _⟩ | ⟨early, rfl, rear⟩
  · have member : line ∈ [(⟨0, .comment f.text⟩ : Line), ⟨0, .procedure f.name⟩] := by simp [isFirst]
    simp only [List.mem_cons, List.not_mem_nil, or_false] at member
    rcases member with rfl | rfl <;> cases jumps
  · rcases append_split rear with ⟨late, rfl, rfl⟩ | ⟨rest, _, isLast⟩
    · refine ⟨early, late, rfl, rfl, fun other member => (tidy.obeys other ?_).orderly, ?_⟩
      · rcases List.mem_append.mp member with isEarly | isLate
        · simp [isEarly]
        · simp [isLate]
      · -- The line of the jump itself defines no label.
        have noLabel : line.item.label? = none := by
          cases item : line.item with
          | label => simp [item, Item.target?] at jumps
          | instr | comment | procedure | endProcedure | verbatim | blank => rfl
        have leads : l ∈ jumpTargets (early ++ line :: late) :=
          List.mem_filterMap.mpr ⟨line, by simp, jumps⟩
        simpa [definedLabels, noLabel] using tidy.mem_defined leads
    · have member : line ∈ [(⟨0, .endProcedure f.name⟩ : Line), ⟨0, .blank⟩] := by simp [isLast]
      simp only [List.mem_cons, List.not_mem_nil, or_false] at member
      rcases member with rfl | rfl <;> cases jumps

inductive Within : Site → List Stmt → Site → Stmt → Prop
  | here {site : Site} {s : Stmt} {rest : List Stmt} : Within site (s :: rest) site s
  | later {site inner : Site} {s t : Stmt} {rest : List Stmt} (within : Within (site.following s) rest inner t) :
      Within site (s :: rest) inner t
  | block {site inner : Site} {pos : Position} {body rest : List Stmt} {cleanup : Int} {t : Stmt}
      (within : Within site.inBlock body inner t) : Within site (.block pos body cleanup :: rest) inner t
  | yes {site inner : Site} {pos : Position} {condition : Option Expr} {yes t : Stmt} {no : Option Stmt}
      {rest : List Stmt} (within : Within site.inside [yes] inner t) :
      Within site (.branch pos condition yes no :: rest) inner t
  | no {site inner : Site} {pos : Position} {condition : Option Expr} {yes no t : Stmt} {rest : List Stmt}
      (within : Within (site.inElse yes) [no] inner t) :
      Within site (.branch pos condition yes (some no) :: rest) inner t
  | forInit {site inner : Site} {pos : Position} {clause body t : Stmt} {condition post : Option Expr} {cleanup : Int}
      {rest : List Stmt} (within : Within site.inside [clause] inner t) :
      Within site (.forLoop pos (some clause) condition post body cleanup :: rest) inner t

inductive InLoop : Site → Stmt → Site → Stmt → Prop
  | whileBody {outer inner : Site} {pos : Position} {condition : Option Expr} {body t : Stmt}
      (within : Within outer.inWhile [body] inner t) : InLoop outer (.whileLoop pos condition body) inner t
  | forBody {outer inner : Site} {pos : Position} {init : Option Stmt} {condition post : Option Expr} {body t : Stmt}
      {cleanup : Int} (within : Within (outer.inFor init) [body] inner t) :
      InLoop outer (.forLoop pos init condition post body cleanup) inner t

theorem Within.loop_eq {body : List Stmt} (within : Within site body nested t) :
    nested.ctx.loop = site.ctx.loop := by
  induction within with
  | here => rfl
  | later _ ih | block _ ih | yes _ ih | no _ ih | forInit _ ih => exact ih

theorem Part.within_or_inLoop {body : List Stmt} (part : Part site body before nested t) :
    Within site body nested t ∨ ∃ around outer loop, Part site body around outer loop ∧ InLoop outer loop nested t := by
  induction part with
  | here => exact .inl .here
  | later goes _ ih =>
    rcases ih with within | ⟨around, outer, loop, there, inLoop⟩
    · exact .inl (.later within)
    · exact .inr ⟨_, outer, loop, .later goes there, inLoop⟩
  | block _ ih =>
    rcases ih with within | ⟨around, outer, loop, there, inLoop⟩
    · exact .inl (.block within)
    · exact .inr ⟨_, outer, loop, .block there, inLoop⟩
  | yes _ ih =>
    rcases ih with within | ⟨around, outer, loop, there, inLoop⟩
    · exact .inl (.yes within)
    · exact .inr ⟨_, outer, loop, .yes there, inLoop⟩
  | yesOr _ ih =>
    rcases ih with within | ⟨around, outer, loop, there, inLoop⟩
    · exact .inl (.yes within)
    · exact .inr ⟨_, outer, loop, .yesOr there, inLoop⟩
  | no _ ih =>
    rcases ih with within | ⟨around, outer, loop, there, inLoop⟩
    · exact .inl (.no within)
    · exact .inr ⟨_, outer, loop, .no there, inLoop⟩
  | forInit _ ih =>
    rcases ih with within | ⟨around, outer, loop, there, inLoop⟩
    · exact .inl (.forInit within)
    · exact .inr ⟨_, outer, loop, .forInit there, inLoop⟩
  | whileBody _ ih =>
    rcases ih with within | ⟨around, outer, loop, there, inLoop⟩
    · exact .inr ⟨_, _, _, .here, .whileBody within⟩
    · exact .inr ⟨_, outer, loop, .whileBody there, inLoop⟩
  | forBody _ ih =>
    rcases ih with within | ⟨around, outer, loop, there, inLoop⟩
    · exact .inr ⟨_, _, _, .here, .forBody within⟩
    · exact .inr ⟨_, outer, loop, .forBody there, inLoop⟩

end Lower

theorem Stmt.leavesRound_cases {t : Stmt} (leaving : t.leavesRound = true) :
    ∃ pos cleanup, t = .breakLoop pos cleanup ∨ t = .continueLoop pos cleanup := by
  unfold leavesRound at leaving
  split at leaving
  · exact ⟨_, _, .inl rfl⟩
  · exact ⟨_, _, .inr rfl⟩
  · cases leaving

def Stmt.exitRole : (loop leaving : Stmt) → Option LabelRole
  | .whileLoop _ _ _, .breakLoop _ _ => some .whileEnd
  | .whileLoop _ _ _, .continueLoop _ _ => some .whileCondition
  | .forLoop _ _ _ _ _ _, .breakLoop _ _ => some .forEnd
  | .forLoop _ _ _ _ _ _, .continueLoop _ _ => some .forIncrement
  | _, _ => none

namespace Lower

structure Leaves (outer : Site) (loop : Stmt) (inner : Site) (t : Stmt) (role : LabelRole) : Prop where
  isRole : loop.exitRole t = some role
  code : ∃ earlier, jumpTargets earlier = [] ∧
    (inner.emitted t).lines = earlier ++ inner.ctx.code [.jump (outer.label role)]
  defined : outer.label role ∈ definedLabels (outer.emitted loop).lines

theorem Site.code_of_leave {site : Site} (shape : site.emitted t = site.leave text cleanup l) :
    ∃ earlier, jumpTargets earlier = [] ∧ (site.emitted t).lines = earlier ++ site.ctx.code [.jump l] := by
  refine ⟨site.beforeLeave text cleanup, ?_, congrArg Emitted.lines shape⟩
  simp only [Site.beforeLeave, Context.comment, release]
  split <;> split <;> (try split) <;> rfl

theorem InLoop.leaves {outer inner : Site} {loop t : Stmt} (inLoop : InLoop outer loop inner t)
    (leaving : t.leavesRound = true) : ∃ role, Leaves outer loop inner t role := by
  obtain ⟨pos, cleanup, rfl | rfl⟩ := Stmt.leavesRound_cases leaving
  · cases inLoop with
    | whileBody within =>
      exact ⟨.whileEnd, rfl, Site.code_of_leave (inner.emitted_breakLoop within.loop_eq pos cleanup),
        by simp [Site.emitted_whileLoop]⟩
    | forBody within =>
      exact ⟨.forEnd, rfl, Site.code_of_leave (inner.emitted_breakLoop within.loop_eq pos cleanup),
        by simp [Site.emitted_forLoop]⟩
  · cases inLoop with
    | whileBody within =>
      exact ⟨.whileCondition, rfl, Site.code_of_leave (inner.emitted_continueLoop within.loop_eq pos cleanup),
        by simp [Site.emitted_whileLoop, Site.beforeWhile]⟩
    | forBody within =>
      exact ⟨.forIncrement, rfl, Site.code_of_leave (inner.emitted_continueLoop within.loop_eq pos cleanup),
        by simp [Site.emitted_forLoop]⟩

end Lower

namespace Program

variable {program : Program} {settings : Settings} {needed : List Bytes}

theorem settled_of_noAssembly (settings : Settings) (isTable : IsTable program.functions)
    (noAssembly : program.hasAssembly = false) (member : f ∈ program.functions) (implemented : f.body = some body)
    (labels : Nat) :
    Lower.SettledBody false settings labels f body :=
  settled settings isTable false (fun has => (noAssembly.symm.trans has)) member implemented labels

theorem header_isLegible : ∀ line ∈ Lower.header.lines, line.item.isLegible = true := List.all_eq_true.mp rfl

theorem definedLabels_header : definedLabels Lower.header.lines = [] := rfl

theorem generate_legible (isTable : IsTable program.functions) (noAssembly : program.hasAssembly = false) :
    ∀ line ∈ (program.generate settings).lines, line.item.isLegible = true := by
  intro line member
  rcases generate_cases isTable (fun has => noAssembly.symm.trans has) member with isHeader | rfl | ⟨f, kind⟩
  · exact header_isLegible line isHeader
  · decide
  · rcases kind with orderly | isOpening | isClosing | isBlank
    · exact Item.isLegible_of_isOrderly orderly
    · rw [isOpening]
      rfl
    · rw [isClosing]
      rfl
    · rw [isBlank]
      rfl

theorem generate_unique (isTable : IsTable program.functions) (noAssembly : program.hasAssembly = false)
    (linked : program.reachable = .ok needed) (l : Label) :
    (definedLabels (program.generate settings).lines).count l ≤ 1 := by
  obtain ⟨high, _, unique⟩ : ∃ high, 0 ≤ high ∧ ∀ l,
      (definedLabels (Lower.functions settings needed 0 program.functions).lines).count l ≤ Label.between 0 high l :=
    Lower.functions_unique
      (fun f member body implemented => settled_of_noAssembly settings isTable noAssembly member implemented) 0
  rw [generate_lines linked, definedLabels_append, definedLabels_header, List.nil_append]
  refine Nat.le_trans (unique l) ?_
  rw [Label.between]
  split <;> omega

def InProcedure (before after early late : List Line) : Prop :=
  ∃ front f rear, before = front ++ ⟨0, .procedure f⟩ :: early ∧ after = late ++ ⟨0, .endProcedure f⟩ :: rear ∧
    ∀ other ∈ early ++ late, ∀ g, other.item ≠ .procedure g ∧ other.item ≠ .endProcedure g

theorem generate_jump (isTable : IsTable program.functions) (noAssembly : program.hasAssembly = false)
    (linked : program.reachable = .ok needed) (shape : (program.generate settings).lines = before ++ line :: after)
    (jumps : line.item.target? = some l) :
    ∃ early late, InProcedure before after early late ∧ l ∈ definedLabels (early ++ late) := by
  rw [generate_lines linked] at shape
  rcases append_split shape with ⟨rest, isHeader, _⟩ | ⟨lead, rfl, code⟩
  · have isIdle := Lower.header_isIdle line (by simp [isHeader])
    generalize line.item = item at isIdle jumps
    cases item <;> first | cases jumps | cases isIdle
  · have all : Lower.EmitsAll settings needed 0 program.functions :=
      Lower.functions_emitsAll (fun f member body implemented => procedure_fine isTable member implemented) 0
    cases all.lines lead line after code with
    | last => cases jumps
    | @inside front _ _ rear _ start f body emits inside =>
      obtain ⟨member, implemented⟩ := emits.implemented
      obtain ⟨early, late, rfl, rfl, orderly, defined⟩ := Lower.procedure_jump
        (settled_of_noAssembly settings isTable noAssembly member implemented start) inside jumps
      refine ⟨early, late, ⟨Lower.header.lines ++ front ++ [⟨0, .comment f.text⟩], f.name, ⟨0, .blank⟩ :: rear,
        by simp, by simp, fun other there g => ?_⟩, defined⟩
      have isOrderly := orderly other there
      constructor
      all_goals
        intro isBoundary
        rw [isBoundary] at isOrderly
        cases isOrderly

structure ResolvesJumps (program : Program) (settings : Settings) (needed : List Bytes) : Prop where
  once : ∀ l : Label, ((program.generate settings).lines.map Line.text).countP l.isDefinedBy ≤ 1
  written : ∀ line ∈ (program.generate settings).lines, ∀ l, line.item.target? = some l →
    ∃ name ∈ jumpNames, line.text.dropWhile (· = 32) = name ++ 32 :: l.text
  resolved : ∀ before line after, (program.generate settings).lines = before ++ line :: after →
    (∀ f, line.item ≠ .procedure f) → ∀ name ∈ jumpNames, ∀ operand,
      line.text.dropWhile (· = 32) = name ++ 32 :: operand →
      ∃ l : Label, operand = l.text ∧ ∃ early late, InProcedure before after early late ∧
        ∃ target ∈ early ++ late, l.isDefinedBy target.text = true
  leaves : ∀ front start f body, Lower.Emits settings needed 0 program.functions front start f body →
    ∀ before inner t, Lower.Part (Lower.bodySite settings start f) [body] before inner t → t.leavesRound = true →
      ∃ around outer loop role, Lower.Part (Lower.bodySite settings start f) [body] around outer loop ∧
        Lower.InLoop outer loop inner t ∧ Lower.Leaves outer loop inner t role

end Program

/-- In the listing of an accepted source every label is defined at most once, and every jump leads to a label of its own
procedure. A break or continue leads to a label of the innermost loop around it. -/
theorem jump_targets {env : Env} {program : Program} {settings : Settings} {needed : List Bytes}
    (parsed : (parse env).program = .ok program) (noAssembly : program.hasAssembly = false)
    (linked : program.reachable = .ok needed) : program.ResolvesJumps settings needed := by
  have isTable := parse_isTable parsed
  have legible : ∀ line ∈ (program.generate settings).lines, line.item.isLegible = true :=
    Program.generate_legible isTable noAssembly
  refine ⟨fun l => ?_, fun line member l jumps => ?_, fun before line after shape inside name isJump operand reads => ?_,
    fun front start f body emits before inner t part leaving => ?_⟩
  · rw [countP_isDefinedBy legible]
    exact Program.generate_unique isTable noAssembly linked l
  · exact Line.text_of_target? (legible line member) jumps
  · have isLine : line ∈ (program.generate settings).lines := by simp [shape]
    obtain ⟨l, jumps, named⟩ := Line.target?_of_text (legible line isLine) inside isJump reads
    obtain ⟨early, late, ⟨front, f, rear, opens, closes, between⟩, defined⟩ :=
      Program.generate_jump isTable noAssembly linked shape jumps
    refine ⟨l, named, early, late, ⟨front, f, rear, opens, closes, between⟩, ?_⟩
    obtain ⟨target, there, isLabel⟩ := List.mem_filterMap.mp defined
    refine ⟨target, there, (Line.isDefinedBy_text_iff (legible target ?_) l).mpr (Item.eq_of_label? isLabel)⟩
    rw [shape, opens, closes]
    rcases List.mem_append.mp there with isEarly | isLate
    · simp [isEarly]
    · simp [isLate]
  · obtain ⟨member, implemented⟩ := emits.implemented
    obtain ⟨_, frame, _, _, _, accepts⟩ := isTable.accepted f member body implemented
    rcases part.within_or_inLoop with within | ⟨around, outer, loop, there, inLoop⟩
    · -- Outside of every loop the statement would not have been accepted.
      have isSome := accepts.inLoop part (by simp) leaving
      rw [within.loop_eq] at isSome
      cases isSome
    · obtain ⟨role, leaves⟩ := inLoop.leaves leaving
      exact ⟨around, outer, loop, role, there, inLoop, leaves⟩

def nestedLoops : Env where
  source :=
    { lines := #["void main() \x7b for (int i = 0; i < 9; ++i) \x7b while (i < 5) \x7b if (i == 2) continue; break; \x7d",
        "if (i == 7) break; \x7d \x7d"]
      origins := #["nested.cb", "nested.cb"] }
  settings := {}

def innerExits : List Label := [⟨1, .forEnd⟩, ⟨2, .whileEnd⟩, ⟨2, .whileCondition⟩]

theorem jump_targets_nestedLoops :
    ∃ program needed, (parse nestedLoops).program = .ok program ∧ program.hasAssembly = false ∧
      program.reachable = .ok needed ∧ innerExits ⊆ jumpTargets (program.generate nestedLoops.settings).lines ∧
      program.ResolvesJumps nestedLoops.settings needed := by
  have accepted : (parse nestedLoops).program.toOption.any (fun program =>
      !program.hasAssembly && program.reachable.toOption.isSome &&
        innerExits ⊆ jumpTargets (program.generate nestedLoops.settings).lines) = true := by decide +kernel
  obtain ⟨program, parsed, leaves⟩ := exists_of_any accepted
  simp only [Bool.and_eq_true, Bool.not_eq_true', decide_eq_true_eq] at leaves
  obtain ⟨⟨noAssembly, isLinked⟩, targets⟩ := leaves
  obtain ⟨needed, linked⟩ := exists_of_isSome isLinked
  exact ⟨program, needed, parsed, noAssembly, linked, targets, jump_targets parsed noAssembly linked⟩

end Cb
