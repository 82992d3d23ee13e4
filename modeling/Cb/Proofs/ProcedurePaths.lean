import Cb.Proofs.ControlFlow

/-! Control never runs off a procedure: a path from its first line stays above its last one, and goes on until
it comes to a return. -/

namespace Cb

theorem Item.falls_cases {item : Item} (stops : item.falls = false) :
    (∃ bytes, item = .instr (.ret bytes)) ∨ ∃ l, item.target? = some l := by
  unfold falls at stops
  split at stops
  · exact .inr ⟨_, rfl⟩
  · exact .inl ⟨_, rfl⟩
  · cases stops

theorem index_eq_of_label (once : (definedLabels lines).count l ≤ 1) {i j first second : Nat}
    (one : lines[i]? = some ⟨first, .label l⟩) (other : lines[j]? = some ⟨second, .label l⟩) : i = j := by
  have twice {i j first second : Nat} (one : lines[i]? = some ⟨first, .label l⟩)
      (other : lines[j]? = some ⟨second, .label l⟩) (before : i < j) : False := by
    have early : (⟨first, .label l⟩ : Line) ∈ lines.take j :=
      List.mem_of_getElem? ((List.getElem?_take_of_lt before).trans one)
    have late : (⟨second, .label l⟩ : Line) ∈ lines.drop j := by
      refine List.mem_of_getElem? (i := 0) ?_
      rw [List.getElem?_drop, Nat.add_zero, other]
    have parts : definedLabels lines = definedLabels (lines.take j) ++ definedLabels (lines.drop j) := by
      rw [← definedLabels_append, List.take_append_drop]
    rw [parts, List.count_append] at once
    have : 0 < (definedLabels (lines.take j)).count l := List.count_pos_iff.mpr (List.mem_filterMap.mpr ⟨_, early, rfl⟩)
    have : 0 < (definedLabels (lines.drop j)).count l := List.count_pos_iff.mpr (List.mem_filterMap.mpr ⟨_, late, rfl⟩)
    omega
  rcases Nat.lt_trichotomy i j with before | same | after
  · exact (twice one other before).elim
  · exact same
  · exact (twice other one after).elim

structure Enclosed (lines above inside below : List Line) (name : Bytes) (paramBytes : Nat) : Prop where
  shape : lines = above ++ ⟨0, .procedure name⟩ :: inside ++ ⟨0, .endProcedure name⟩ :: below
  once : ∀ l, (definedLabels lines).count l ≤ 1
  orderly : ∀ line ∈ inside, line.item.isOrderly false paramBytes = true
  closed : ∀ l ∈ jumpTargets inside, l ∈ definedLabels inside
  stops : passes (jumpTargets lines) false (above ++ ⟨0, .procedure name⟩ :: inside) = false

namespace Enclosed

variable {lines above inside below : List Line} {name : Bytes} {paramBytes : Nat}

theorem opens (enclosed : Enclosed lines above inside below name paramBytes) :
    lines[above.length]? = some ⟨0, .procedure name⟩ := by
  rw [enclosed.shape]
  simp

theorem closes (enclosed : Enclosed lines above inside below name paramBytes) :
    lines[above.length + 1 + inside.length]? = some ⟨0, .endProcedure name⟩ := by
  rw [enclosed.shape, List.getElem?_append_right (by simp; omega)]
  simp [Nat.add_comm, Nat.add_left_comm]

theorem found (enclosed : Enclosed lines above inside below name paramBytes) (within : k < inside.length) :
    lines[above.length + 1 + k]? = some inside[k] := by
  rw [enclosed.shape, List.append_assoc, List.getElem?_append_right (by omega), Nat.add_assoc, Nat.add_sub_cancel_left,
    Nat.add_comm 1 k, List.cons_append, List.getElem?_cons_succ, List.getElem?_append_left within,
    List.getElem?_eq_getElem within]

variable {i : Nat}

theorem line_inside (enclosed : Enclosed lines above inside below name paramBytes) (later : above.length < i)
    (before : i < above.length + 1 + inside.length) : ∃ line ∈ inside, lines[i]? = some line := by
  obtain ⟨k, rfl⟩ : ∃ k, i = above.length + 1 + k := ⟨i - (above.length + 1), by omega⟩
  have within : k < inside.length := by omega
  exact ⟨inside[k], List.getElem_mem within, enclosed.found within⟩

theorem index_inside (enclosed : Enclosed lines above inside below name paramBytes) (defined : l ∈ definedLabels inside)
    : ∃ indent j, lines[j]? = some ⟨indent, .label l⟩ ∧ above.length < j ∧
      j < above.length + 1 + inside.length := by
  obtain ⟨line, member, isLabel⟩ := List.mem_filterMap.mp defined
  obtain ⟨k, within, rfl⟩ := List.getElem_of_mem member
  refine ⟨inside[k].indent, above.length + 1 + k, ?_, by omega, by omega⟩
  rw [enclosed.found within, ← Item.eq_of_label? isLabel]

theorem confines (enclosed : Enclosed lines above inside below name paramBytes) (path : Leads lines above.length i) :
    above.length ≤ i ∧ i < above.length + 1 + inside.length := by
  induction path with
  | refl => omega
  | @tail i j earlier step ih =>
    cases step with
    | @next line found falls =>
      refine ⟨by omega, Nat.lt_of_le_of_ne (by omega) fun atEnd => ?_⟩
      have path : Leads lines above.length (i + 1) := earlier.tail (.next found falls)
      rw [atEnd] at path
      rcases path.reached enclosed.opens with passed | ⟨line, isLast, entered⟩
      · have upTo : lines.take (above.length + 1 + inside.length) = above ++ ⟨0, .procedure name⟩ :: inside := by
          rw [enclosed.shape]
          exact List.take_left' (by simp; omega)
        rw [upTo, enclosed.stops] at passed
        cases passed
      · cases enclosed.closes.symm.trans isLast
        cases entered
    | @jump _ indent line l found jumps label =>
      have later : above.length < i := by
        refine Nat.lt_of_le_of_ne ih.1 fun atStart => ?_
        rw [← atStart] at found
        cases enclosed.opens.symm.trans found
        cases jumps
      obtain ⟨same, member, isSame⟩ := enclosed.line_inside later ih.2
      cases found.symm.trans isSame
      have defined := enclosed.closed l (List.mem_filterMap.mpr ⟨line, member, jumps⟩)
      obtain ⟨_, k, isLabel, low, high⟩ := enclosed.index_inside defined
      cases index_eq_of_label (enclosed.once l) label isLabel
      omega

theorem goes_on (enclosed : Enclosed lines above inside below name paramBytes) (path : Leads lines above.length i) :
    ∃ line, lines[i]? = some line ∧ (line.item = .instr (.ret paramBytes) ∨ ∃ j, Steps lines i j) := by
  obtain ⟨low, high⟩ := enclosed.confines path
  rcases Nat.eq_or_lt_of_le low with rfl | later
  · exact ⟨_, enclosed.opens, .inr ⟨_, .next enclosed.opens rfl⟩⟩
  · obtain ⟨line, member, found⟩ := enclosed.line_inside later high
    refine ⟨line, found, ?_⟩
    cases falls : line.item.falls with
    | true => exact .inr ⟨_, .next found falls⟩
    | false =>
      rcases Item.falls_cases falls with ⟨bytes, returns⟩ | ⟨l, jumps⟩
      · have orderly := enclosed.orderly line member
        rw [returns] at orderly
        rw [returns, of_decide_eq_true orderly]
        exact .inl rfl
      · have defined := enclosed.closed l (List.mem_filterMap.mpr ⟨line, member, jumps⟩)
        obtain ⟨_, j, isLabel, _, _⟩ := enclosed.index_inside defined
        exact .inr ⟨j, .jump found jumps isLabel⟩

end Enclosed

namespace Lower

variable {settings : Settings} {needed : List Bytes} {labels : Nat} {f : Function} {body : Stmt} {raw : Bool}

variable {l : Label}

theorem jumpTargets_of_inside {text name : Bytes} (shape : lines = [⟨0, .comment text⟩, ⟨0, .procedure name⟩] ++ inside
      ++ [⟨0, .endProcedure name⟩, ⟨0, .blank⟩]) : jumpTargets lines = jumpTargets inside := by
  rw [shape, jumpTargets_append, jumpTargets_append]
  simp [jumpTargets, Item.target?]

theorem procedure_targets (settled : SettledBody raw settings labels f body)
    (member : l ∈ jumpTargets (procedure settings labels f body).lines) :
    labels < l.number ∧ l.number ≤ (procedure settings labels f body).labels := by
  obtain ⟨inside, shape, tidy⟩ := procedure_lines settled
  rw [jumpTargets_of_inside shape] at member
  exact tidy.between_of_mem member

theorem procedure_unused (settled : SettledBody raw settings labels f body)
    (isDead : l ∈ deadEnds body (bodySite settings labels f)) :
    (labels < l.number ∧ l.number ≤ (procedure settings labels f body).labels) ∧
      l ∉ jumpTargets (procedure settings labels f body).lines := by
  obtain ⟨inside, shape, tidy⟩ := procedure_lines settled
  rw [jumpTargets_of_inside shape]
  exact tidy.unused (List.count_pos_iff.mpr isDead)

theorem functions_targets (settled : ∀ f ∈ list, ∀ body, f.body = some body → ∀ labels,
      SettledBody raw settings labels f body) (labels : Nat)
    (member : l ∈ jumpTargets (functions settings needed labels list).lines) : labels < l.number := by
  revert member
  refine functions_induction settings needed list settled nofun (fun left others member => ?_)
    (@fun labels f body _ implemented used first others member => ?_) labels
  · rw [functions_lines_of_left left] at member
    exact others member
  · rw [functions_lines_of_used implemented used first.fine, jumpTargets_append] at member
    rcases List.mem_append.mp member with early | late
    · exact (procedure_targets first early).1
    · exact Nat.lt_of_le_of_lt (procedure_grows settings labels f body) (others late)

theorem Emits.unused (emits : Emits settings needed labels list front start f body)
    (settled : ∀ f ∈ list, ∀ body, f.body = some body → ∀ labels,
      SettledBody raw settings labels f body)
    (isDead : l ∈ deadEnds body (bodySite settings start f)) :
    labels < l.number ∧ l ∉ jumpTargets (functions settings needed labels list).lines := by
  induction emits with
  | @here labels f rest body implemented used =>
    have first := settled f (by simp) body implemented labels
    obtain ⟨⟨above, below⟩, avoided⟩ := procedure_unused first isDead
    refine ⟨above, fun member => ?_⟩
    rw [functions_lines_of_used implemented used first.fine, jumpTargets_append] at member
    rcases List.mem_append.mp member with early | late
    · exact avoided early
    · exact Nat.not_lt.mpr below (functions_targets (fun g isLater => settled g (by simp [isLater])) _ late)
  | @later labels start f g rest body code before implemented used fine others ih =>
    obtain ⟨above, avoided⟩ := ih (fun g isLater => settled g (by simp [isLater])) isDead
    have first := settled f (by simp) body implemented labels
    refine ⟨Nat.lt_of_le_of_lt (procedure_grows settings labels f body) above, fun member => ?_⟩
    rw [functions_lines_of_used implemented used fine, jumpTargets_append] at member
    rcases List.mem_append.mp member with early | late
    · exact Nat.not_lt.mpr (procedure_targets first early).2 above
    · exact avoided late
  | skip left _ ih =>
    rw [functions_lines_of_left left]
    exact ih (fun g isLater => settled g (by simp [isLater])) isDead

def returning (settings : Settings) (f : Function) (returned : Bool) : List Line :=
  Context.code { (bodySite settings 0 f).ctx with indent := 1 } (if returned then [] else epilogue f.paramBytes)

theorem procedure_lines_eq (settings : Settings) (labels : Nat) (f : Function) (body : Stmt) :
    (procedure settings labels f body).lines =
      opening settings f ++ ((bodySite settings labels f).emitted body).lines
        ++ returning settings f ((bodySite settings labels f).emitted body).terminates
        ++ [⟨0, .endProcedure f.name⟩, ⟨0, .blank⟩] := by
  rw [procedure_eq, List.append_assoc _ (returning _ _ _)]
  rfl

end Lower

mutual

theorem Stmt.terminates_lowered (s : Stmt) (ctx : Lower.Context) (labels : Nat) (stops : s.terminates = true) :
    (Lower.statement ctx labels s).terminates = true := by
  match s with
  | .ret _ _ _ => rw [Lower.statement]
  | .block _ body _ =>
    rw [Stmt.terminates] at stops
    have ends := Stmt.anyTerminates_lowered body { ctx with indent := ctx.indent + 1 } labels stops
    rw [Lower.statement]
    simp only [ends, Bool.true_or, ↓reduceIte]
  | .branch _ _ yes (some no) =>
    rw [Stmt.terminates, Bool.and_eq_true] at stops
    rw [Lower.statement]
    simp only [Stmt.terminates_lowered yes ctx _ stops.1, Stmt.terminates_lowered no ctx _ stops.2, Bool.and_self]
  | .branch _ _ _ none | .empty | .breakLoop _ _ | .continueLoop _ _ | .assembly _ _ | .forLoop _ _ _ _ _ _
  | .whileLoop _ _ _ | .declare _ _ | .evaluate _ _ | .bare _ | .stray _ _ => cases stops
termination_by structural s

theorem Stmt.anyTerminates_lowered (body : List Stmt) (ctx : Lower.Context) (labels : Nat)
    (stops : Stmt.anyTerminates body = true) : (Lower.statements ctx labels body).terminates = true := by
  match body with
  | [] => cases stops
  | s :: rest =>
    rw [Stmt.anyTerminates, Bool.or_eq_true] at stops
    rw [Lower.statements]
    split
    · assumption
    · rename_i goes
      rcases stops with first | later
      · exact absurd (Stmt.terminates_lowered s ctx labels first) goes
      · exact Stmt.anyTerminates_lowered rest ctx _ later
termination_by structural body

end

namespace Program

variable {program : Program} {settings : Settings} {needed : List Bytes}

theorem part_stops (isTable : IsTable program.functions) (noAssembly : program.hasAssembly = false)
    (linked : program.reachable = .ok needed) {start : Nat}
    (emits : Lower.Emits settings needed 0 program.functions front start f body)
    (part : Lower.Part (Lower.bodySite settings start f) [body] before nested t)
    (terminates : (nested.emitted t).terminates = true) (reached : Bool) :
    passes (jumpTargets (program.generate settings).lines) reached (nested.emitted t).lines = false := by
  obtain ⟨member, implemented⟩ := emits.implemented
  obtain ⟨_, frame, _, _, keeps, accepts⟩ := isTable.accepted f member body implemented
  refine accepts.stops _ nofun (fun l isDead isTarget => ?_) part terminates reached
  rw [Lower.deadEndsAll_singleton] at isDead
  have noJumps : jumpTargets Lower.header.lines = [] := rfl
  rw [generate_lines linked, jumpTargets_append, noJumps, List.nil_append] at isTarget
  exact (emits.unused (fun g isFunction code isBody labels =>
    settled_of_noAssembly settings isTable noAssembly isFunction isBody labels) isDead).2 isTarget

theorem enclosed (isTable : IsTable program.functions) (noAssembly : program.hasAssembly = false)
    (linked : program.reachable = .ok needed)
    (emits : Lower.Emits settings needed 0 program.functions front start f body) :
    ∃ inside below, Enclosed (program.generate settings).lines (Lower.header.lines ++ front ++ [⟨0, .comment f.text⟩])
        inside (⟨0, .blank⟩ :: below) f.name f.paramBytes ∧
      (Lower.procedure settings start f body).lines.length = inside.length + 4 := by
  obtain ⟨member, implemented⟩ := emits.implemented
  obtain ⟨inside, shape, tidy⟩ :=
    Lower.procedure_lines (settled_of_noAssembly settings isTable noAssembly member implemented start)
  obtain ⟨after, listing⟩ := emits.lines_eq
  -- The lines above the last ones, once as the body with its frame and once as a row between two lines.
  let code := Lower.returning settings f ((Lower.bodySite settings start f).emitted body).terminates
  have upToEnd : Lower.opening settings f ++ ((Lower.bodySite settings start f).emitted body).lines ++ code =
      [⟨0, .comment f.text⟩, ⟨0, .procedure f.name⟩] ++ inside :=
    List.append_cancel_right ((Lower.procedure_lines_eq settings start f body).symm.trans shape)
  refine ⟨inside, after, ⟨?_, generate_unique isTable noAssembly linked, fun line isInside => (tidy.obeys line isInside).orderly,
    fun l jumps => (tidy.mem_defined jumps).resolve_right List.not_mem_nil, ?_⟩, ?_⟩
  · rw [generate_lines linked, listing, shape]
    simp
  · have parts : Lower.header.lines ++ front ++ [⟨0, .comment f.text⟩] ++ ⟨0, .procedure f.name⟩ :: inside =
        Lower.header.lines ++ front ++ ([⟨0, .comment f.text⟩, ⟨0, .procedure f.name⟩] ++ inside) := by simp
    rw [parts, ← upToEnd, passes_append, passes_append, passes_append]
    cases stops : ((Lower.bodySite settings start f).emitted body).terminates with
    | true =>
      rw [part_stops isTable noAssembly linked emits .here stops]
      simp [code, Lower.returning, stops, passes, Lower.Context.code]
    | false =>
      simp only [code, stops]
      exact passes_of_last _ _ [_] rfl
  · rw [shape]
    simp

structure NeverRunsOff (program : Program) (settings : Settings) (needed : List Bytes) : Prop where
  /-- A path from the first line of a procedure stays above its last line, and ends with a return if it ends. -/
  confined : ∀ front start f body, Lower.Emits settings needed 0 program.functions front start f body →
    ∃ first last, first = (Lower.header.lines ++ front).length + 1 ∧
      last + 2 = (Lower.header.lines ++ front ++ (Lower.procedure settings start f body).lines).length ∧
      (program.generate settings).lines[first]? = some ⟨0, .procedure f.name⟩ ∧
      (program.generate settings).lines[last]? = some ⟨0, .endProcedure f.name⟩ ∧
      ∀ i, Leads (program.generate settings).lines first i → first ≤ i ∧ i < last ∧
        ∃ line, (program.generate settings).lines[i]? = some line ∧
          (line.item = .instr (.ret f.paramBytes) ∨ ∃ j, Steps (program.generate settings).lines i j)
  /-- Control does not fall out of a statement that terminates, and would not come to a line right after it. -/
  stops : ∀ front start f body, Lower.Emits settings needed 0 program.functions front start f body →
    ∀ before inner t, Lower.Part (Lower.bodySite settings start f) [body] before inner t →
      (inner.emitted t).terminates = true → ∃ above below, (program.generate settings).lines = above ++ below ∧
        above = Lower.header.lines ++ front ++ Lower.opening settings f ++ before ++ (inner.emitted t).lines ∧
        (∀ entry i indent name line, (program.generate settings).lines[entry]? = some ⟨indent, .procedure name⟩ →
          Leads (program.generate settings).lines entry i → i + 1 = above.length →
            (program.generate settings).lines[i]? = some line → line.item.falls = false) ∧
        ∀ entry indent name margin text,
          (above ++ ⟨margin, .comment text⟩ :: below)[entry]? = some ⟨indent, .procedure name⟩ →
            ¬ Leads (above ++ ⟨margin, .comment text⟩ :: below) entry above.length
  reports : ∀ ctx labels s, s.terminates = true → (Lower.statement ctx labels s).terminates = true

end Program

/-- Control that has entered a procedure stays in it until it returns: no path runs off its end, and none comes to what
follows a statement that terminates. -/
theorem procedures_keep_control {env : Env} {program : Program} {settings : Settings} {needed : List Bytes}
    (parsed : (parse env).program = .ok program) (noAssembly : program.hasAssembly = false)
    (linked : program.reachable = .ok needed) : program.NeverRunsOff settings needed := by
  have isTable := parse_isTable parsed
  refine ⟨fun front start f body emits => ?_, fun front start f body emits before inner t part terminates => ?_,
    fun ctx labels s => s.terminates_lowered ctx labels⟩
  · obtain ⟨inside, below, enclosed, length⟩ := program.enclosed isTable noAssembly linked emits
    refine ⟨_, _, ?_, ?_, enclosed.opens, enclosed.closes, fun i path => ?_⟩
    · simp only [List.length_append, List.length_singleton]
    · simp only [List.length_append, List.length_singleton, length]
      omega
    · exact ⟨(enclosed.confines path).1, (enclosed.confines path).2, enclosed.goes_on path⟩
  · obtain ⟨below, shape⟩ := program.generate_part linked emits part
    have stopped := program.part_stops isTable noAssembly linked emits part terminates
      (passes (jumpTargets (program.generate settings).lines) false
        (Lower.header.lines ++ front ++ Lower.opening settings f ++ before))
    rw [← passes_append, shape] at stopped
    refine ⟨_, below, shape, rfl, ?_, fun entry indent name margin text => Leads.not_after stopped⟩
    intro entry i indent name line starts path atEnd found
    rw [shape] at starts path found
    exact path.not_falls stopped starts atEnd found

def sign : Env where
  source :=
    { lines := #["int sign(int n) \x7b if (n == 0) \x7b return 0; \x7d else \x7b while (n > 9) \x7b if (n == 12) break; n = n - 1; \x7d",
        "return 1; \x7d \x7d void main() \x7b sign(5); \x7d"]
      origins := #["sign.cb", "sign.cb"] }
  settings := {}

theorem procedures_keep_control_sign :
    ∃ program needed, (parse sign).program = .ok program ∧ program.hasAssembly = false ∧ program.reachable = .ok needed ∧
      (program.functions.any fun f => needed.contains f.name && f.body.any Stmt.terminates) = true ∧
      program.NeverRunsOff sign.settings needed := by
  have accepted : (parse sign).program.toOption.any (fun program =>
      !program.hasAssembly && program.reachable.toOption.any fun needed =>
        program.functions.any fun f => needed.contains f.name && f.body.any Stmt.terminates) = true := by decide +kernel
  obtain ⟨program, parsed, holds⟩ := exists_of_any accepted
  rw [Bool.and_eq_true, Bool.not_eq_true'] at holds
  obtain ⟨needed, linked, terminates⟩ := exists_of_any holds.2
  exact ⟨program, needed, parsed, holds.1, linked, terminates, procedures_keep_control parsed holds.1 linked⟩

end Cb
