import Cb.Proofs.ProgramRules
import Cb.Proofs.StatementFlow

/-! Along every path through the code of an accepted program, the stack pointer is right below the locals
in scope. -/

namespace Cb

theorem Signature.paramBytes_eq (f : Signature) : f.paramBytes = 2 * f.params.length := by
  simp only [paramBytes, Ty.paddedSize_eq]
  induction f.params with
  | nil => rfl
  | cons param rest ih =>
    rw [List.foldr_cons, ih, List.length_cons]
    omega

namespace Program

def popped (program : Program) (name : Bytes) : Int := ((program.find? name).map fun f => (f.paramBytes : Int)).getD 0

def hasAssembly (program : Program) : Bool := program.functions.any fun f => f.body.any Stmt.hasAssembly

variable {program : Program}

theorem popped_of_mem (isTable : IsTable program.functions) (member : f ∈ program.functions) :
    program.popped f.name = f.paramBytes := by
  rw [popped, isTable.find?_eq member]
  rfl

theorem popped_of_keeps (isTable : IsTable program.functions) (keeps : Keeps known program.functions)
    (member : f ∈ known) :
    program.popped f.name = 2 * f.params.length := by
  obtain ⟨later, there, name, params, _⟩ := keeps f member
  have sameLength : later.params.length = f.params.length := by
    have lengths := congrArg List.length params
    simpa [Signature.paramTypes] using lengths
  rw [← name, popped_of_mem isTable there, Signature.paramBytes_eq, sameLength]
  rfl

end Program

namespace Lower

variable {popped : Bytes → Int} {settings : Settings} {labels : Nat} {f : Function} {body : Stmt}

theorem opening_flows (levels : Levels) : Flows popped levels none (opening settings f) (some 0) := by
  have titled : Flows popped levels none [⟨0, .comment f.text⟩, ⟨0, .procedure f.name⟩] none :=
    .unreached (by simp [Item.isIdle])
  exact (titled.append (.comment _ _ _)).append ⟨Item.fits_unreached _, Item.fits_unreached _, rfl⟩

theorem closing_flows (levels : Levels) (returned : Bool) :
    Flows popped levels (if returned then none else some 0) (closing settings f returned) none := by
  refine Flows.append ?_ (.unreached (by simp [Item.isIdle]))
  cases returned with
  | true => rfl
  | false => exact .epilogue _ _

theorem header_isIdle : ∀ line ∈ header.lines, line.item.isIdle = true := List.all_eq_true.mp rfl

theorem ne_instr_of_header (isHeader : line ∈ header.lines) (i : Instr) : line.item ≠ .instr i := by
  intro isInstr
  have isIdle := header_isIdle line isHeader
  rw [isInstr] at isIdle
  cases isIdle

theorem header_flows (levels : Levels) : Flows popped levels none header.lines none := .unreached header_isIdle

structure LevelledProcedure (popped : Bytes → Int) (settings : Settings) (levels : Levels) (labels : Nat) (f : Function)
    (body : Stmt) : Prop where
  whole : Flows popped levels none (procedure settings labels f body).lines none
  parts : ∀ {before : List Line} {inner : Site} {t : Stmt}, Part (bodySite settings labels f) [body] before inner t →
    Flows popped levels none (opening settings f ++ before) (some (-localsBytes inner.locals))

theorem procedure_levelled (balanced : Balanced popped none (bodySite settings labels f) [body])
    (closed : body.declares = []) :
    ∃ levels : Levels, ∀ other : Levels, levels.AgreeOn other labels (procedure settings labels f body).labels →
      LevelledProcedure popped settings other labels f body := by
  obtain ⟨levels, levelled⟩ := balanced.of_single
  have shape := procedure_eq settings labels f body
  refine ⟨levels, fun other agree => ?_⟩
  rw [shape] at agree
  have bodyLevelled := levelled other agree nofun
  refine ⟨?_, fun part => (opening_flows other).append (bodyLevelled.parts part)⟩
  rw [shape]
  exact ((opening_flows other).append (bodyLevelled.closed closed)).append (closing_flows other _)

variable {needed : List Bytes}

structure LevelledFunctions (popped : Bytes → Int) (settings : Settings) (needed : List Bytes) (levels : Levels)
    (labels : Nat) (list : List Function) : Prop where
  whole : Flows popped levels none (functions settings needed labels list).lines none
  parts : ∀ {front : List Line} {start : Nat} {f : Function} {body : Stmt},
    Emits settings needed labels list front start f body → ∀ {before : List Line} {inner : Site} {t : Stmt},
      Part (bodySite settings start f) [body] before inner t →
        Flows popped levels none (front ++ (opening settings f ++ before)) (some (-localsBytes inner.locals))

theorem functions_levelled (each : ∀ f ∈ list, ∀ body, f.body = some body → ∀ labels,
      SettledBody raw settings labels f body ∧ body.declares = [] ∧ Balanced popped none (bodySite settings labels f) [body])
    (labels : Nat) :
    ∃ (high : Nat) (levels : Levels), labels ≤ high ∧ ∀ other : Levels, levels.AgreeOn other labels high →
      LevelledFunctions popped settings needed other labels list := by
  refine functions_induction settings needed list each (fun labels => ?_) (fun left others => ?_) (@fun start f body _ implemented used good others => ?_)
    labels
  · exact ⟨labels, fun _ => none, Nat.le_refl _, fun _ _ => ⟨.unreached (by simp [functions, Item.isIdle]), nofun⟩⟩
  · obtain ⟨high, levels, grows, levelled⟩ := others
    refine ⟨high, levels, grows, fun other agree => ?_⟩
    obtain ⟨whole, parts⟩ := levelled other agree
    refine ⟨by rwa [functions_lines_of_left left], fun emits => ?_⟩
    cases emits with
    | here implemented used | later implemented used =>
      rw [implemented, used] at left
      simp at left
    | skip _ emits => exact parts emits
  · obtain ⟨settled, closed, keeps⟩ := good
    obtain ⟨levels, levelled⟩ := procedure_levelled keeps closed
    obtain ⟨high, levelsRest, growsRest, levelledRest⟩ := others
    refine ⟨high, .before (procedure settings start f body).labels levels levelsRest, Nat.le_trans (procedure_grows settings start f body) growsRest,
      fun other agree => ?_⟩
    obtain ⟨whole, parts⟩ := levelled other (agree.left growsRest)
    obtain ⟨wholeRest, partsRest⟩ := levelledRest other (agree.right (procedure_grows settings start f body))
    refine ⟨?_, fun emits => ?_⟩
    · rw [functions_lines_of_used implemented used settled.fine]
      exact whole.append wholeRest
    · cases emits with
      | here isBody _ =>
        cases implemented.symm.trans isBody
        exact parts
      | later isBody _ _ emits =>
        cases implemented.symm.trans isBody
        intro before inner t part
        rw [List.append_assoc]
        exact whole.append (partsRest emits part)
      | skip unused _ =>
        rw [implemented, used] at unused
        simp at unused

end Lower

namespace Program

variable {program : Program} {settings : Settings} {needed : List Bytes}

theorem settled (settings : Settings) (isTable : IsTable program.functions) (raw : Bool)
    (allowed : program.hasAssembly = true → raw = true) (member : f ∈ program.functions)
    (implemented : f.body = some body) (labels : Nat) :
    Lower.SettledBody raw settings labels f body := by
  obtain ⟨_, frame, _, _, keeps, accepts⟩ := isTable.accepted f member body implemented
  refine Lower.Settled.single.mp (accepts.settled (fun g known => program.popped_of_keeps isTable keeps known)
    (fun _ _ => Limits.covers_any raw _) ⟨.nil, fun _ _ => trivial, nofun, fun _ _ _ _ _ _ => trivial, fun _ _ => trivial,
      fun has => allowed ?_⟩ _ trivial nofun)
  refine List.any_eq_true.mpr ⟨f, member, ?_⟩
  rw [implemented]
  exact (Stmt.anyAssembly_singleton body).symm.trans has

theorem anyAssembly_eq_false (noAssembly : program.hasAssembly = false) (member : f ∈ program.functions)
    (implemented : f.body = some body) : Stmt.anyAssembly [body] = false := by
  have none := List.any_eq_false.mp noAssembly f member
  simpa [implemented] using none

theorem balanced (isTable : IsTable program.functions)
    (noAssembly : program.hasAssembly = false) (cleanup : settings.features .cleanupOnBreak = true)
    (member : f ∈ program.functions) (implemented : f.body = some body) (labels : Nat) :
    Lower.SettledBody true settings labels f body ∧ body.declares = [] ∧
      Lower.Balanced program.popped none (Lower.bodySite settings labels f) [body] := by
  obtain ⟨closed, frame, _, _, keeps, accepts⟩ := isTable.accepted f member body implemented
  have plain := anyAssembly_eq_false noAssembly member implemented
  exact ⟨settled settings isTable true (fun _ => rfl) member implemented labels, closed,
    accepts.balanced (fun g known => program.popped_of_keeps isTable keeps known) .nil plain
      (Lower.bodySite settings labels f) rfl cleanup nofun⟩

theorem generate_lines (linked : program.reachable = .ok needed) :
    (program.generate settings).lines = Lower.header.lines ++ (Lower.functions settings needed 0 program.functions).lines := by
  rw [generate, linked]

theorem generate_part (linked : program.reachable = .ok needed) {start : Nat}
    (emits : Lower.Emits settings needed 0 program.functions front start f body)
    (part : Lower.Part (Lower.bodySite settings start f) [body] before nested t) :
    ∃ below, (program.generate settings).lines =
      Lower.header.lines ++ front ++ Lower.opening settings f ++ before ++ (nested.emitted t).lines ++ below := by
  obtain ⟨afterPart, partShape⟩ := part.lines_eq
  obtain ⟨after, shape⟩ := emits.lines_eq
  rw [Lower.Site.emittedAll_singleton] at partShape
  rw [generate_lines linked, shape, Lower.procedure_eq]
  dsimp only
  rw [partShape]
  exact ⟨_, by simp only [List.append_assoc]; rfl⟩

theorem enters_body (linked : program.reachable = .ok needed)
    (emits : Lower.Emits settings needed 0 program.functions front start f body) (popped : Bytes → Int) :
    Reaches popped (program.generate settings).lines (Lower.header.lines ++ front ++ Lower.opening settings f).length 0 := by
  obtain ⟨below, shape⟩ := generate_part linked emits .here
  obtain ⟨above, opens⟩ : ∃ above, Lower.opening settings f =
      above ++ [⟨1, .instr (.mov (.register .base) (.register .stack))⟩] :=
    ⟨_, (List.append_assoc _ [(⟨1, .instr (.push (.register .base))⟩ : Line)] _).symm⟩
  rw [shape, opens, ← List.append_assoc, List.length_append]
  have found : (Lower.header.lines ++ front ++ above ++ [⟨1, .instr (.mov (.register .base) (.register .stack))⟩] ++ []
      ++ ((Lower.bodySite settings start f).emitted body).lines ++ below)[(Lower.header.lines ++ front ++ above).length]? =
      some ⟨1, .instr (.mov (.register .base) (.register .stack))⟩ := by simp
  exact .enter found rfl

theorem generate_levelled (isTable : IsTable program.functions) (noAssembly : program.hasAssembly = false)
    (cleanup : settings.features .cleanupOnBreak = true) :
    ∃ levels, Flows program.popped levels none (program.generate settings).lines none ∧
      ∀ {needed}, program.reachable = .ok needed → ∀ {front start f body},
        Lower.Emits settings needed 0 program.functions front start f body →
          ∀ {before inner t}, Lower.Part (Lower.bodySite settings start f) [body] before inner t →
            Flows program.popped levels none (Lower.header.lines ++ front ++ Lower.opening settings f ++ before)
              (some (-localsBytes inner.locals)) := by
  cases linked : program.reachable with
  | error error =>
    refine ⟨fun _ => none, ?_, nofun⟩
    rw [generate, linked]
    rfl
  | ok needed =>
    obtain ⟨levels, whole, parts⟩ : ∃ levels,
        Lower.LevelledFunctions program.popped settings needed levels 0 program.functions := by
      obtain ⟨high, levels, _, levelled⟩ := Lower.functions_levelled
        (fun f member body implemented => balanced isTable noAssembly cleanup member implemented) 0
      exact ⟨levels, levelled levels fun _ _ _ => rfl⟩
    refine ⟨levels, ?_, fun same => ?_⟩
    · rw [generate_lines linked]
      exact (Lower.header_flows levels).append whole
    · cases same
      intro front start f body emits before inner t part
      simp only [List.append_assoc]
      exact (Lower.header_flows levels).append (parts emits part)

end Program

structure Program.KeepsStack (program : Program) (settings : Settings) : Prop where
  unique : ∀ i a b, Reaches program.popped (program.generate settings).lines i a →
    Reaches program.popped (program.generate settings).lines i b → a = b
  restored : ∀ i level line, Reaches program.popped (program.generate settings).lines i level →
    (program.generate settings).lines[i]? = some line → line.item.restoresBase = true → level = 0
  entered : ∀ needed, program.reachable = .ok needed → ∀ front start f body,
    Lower.Emits settings needed 0 program.functions front start f body →
      Reaches program.popped (program.generate settings).lines
        (Lower.header.lines ++ front ++ Lower.opening settings f).length 0
  starts : ∀ needed, program.reachable = .ok needed → ∀ front start f body,
    Lower.Emits settings needed 0 program.functions front start f body →
      ∀ before inner t, Lower.Part (Lower.bodySite settings start f) [body] before inner t →
        ∃ below, (program.generate settings).lines =
            Lower.header.lines ++ front ++ Lower.opening settings f ++ before ++ (inner.emitted t).lines ++ below ∧
          ∀ level, Reaches program.popped (program.generate settings).lines
            (Lower.header.lines ++ front ++ Lower.opening settings f ++ before).length level →
              level = -localsBytes inner.locals

/-- On every path through the listing of an accepted source the stack pointer has one level at each line. It is back at the
base pointer where that is restored, and right below the locals in scope at each statement. -/
theorem stack_discipline {env : Env} {program : Program} {settings : Settings}
    (parsed : (parse env).program = .ok program) (noAssembly : program.hasAssembly = false)
    (cleanup : settings.features .cleanupOnBreak = true) : program.KeepsStack settings := by
  obtain ⟨levels, flows, parts⟩ := Program.generate_levelled (parse_isTable parsed) noAssembly cleanup
  refine ⟨fun i a b first second => (flows.levelAt first).unique flows (flows.levelAt second),
    fun i level line reached found restores => (flows.levelAt reached).restored flows found restores,
    fun needed linked front start f body emits => Program.enters_body linked emits program.popped,
    fun needed linked front start f body emits before inner t part => ?_⟩
  obtain ⟨below, shape⟩ := Program.generate_part linked emits part
  refine ⟨below, shape, fun level reached => ?_⟩
  rw [shape, List.append_assoc _ _ below] at flows reached
  exact flows.level_eq (parts linked emits part) reached

def countdown : Env where
  source :=
    { lines := #["void main() \x7b int a = 3; while (a > 0) \x7b byte b[3]; a = a - 1; if (a == 1) break; \x7d \x7d"]
      origins := #["countdown.cb"] }
  settings := {}

theorem stack_discipline_countdown :
    ∃ program, (parse countdown).program = .ok program ∧ program.hasAssembly = false ∧
      countdown.settings.features .cleanupOnBreak = true ∧ program.KeepsStack countdown.settings := by
  have accepted : (parse countdown).program.toOption.any (!·.hasAssembly) = true := by decide +kernel
  obtain ⟨program, parsed, isFree⟩ := exists_of_any accepted
  have noAssembly : program.hasAssembly = false := by simpa using isFree
  exact ⟨program, parsed, noAssembly, rfl, stack_discipline parsed noAssembly rfl⟩

end Cb
