import Cb.Lower.Program
import Cb.Proofs.EchoedTexts

/-! Comments do not reach the code: what the text of a listing says beside them does not depend on whether they are
written. -/

namespace Cb

namespace Bytes

def isRemark (text : Bytes) : Bool := (text.dropWhile fun b => b = 32 || b = 9).head? = some 59

theorem isRemark_spaces (n : Nat) (text : Bytes) : (spaces n ++ text).isRemark = text.isRemark := by
  induction n with
  | zero => rfl
  | succ n ih =>
    rw [← ih]
    simp [spaces, isRemark, List.replicate_succ]

theorem split_of_isOneLine (fits : text.isOneLine = true) : split 10 text = [text] := by
  induction text with
  | nil => rfl
  | cons b rest ih =>
    simp only [isOneLine, List.all_cons, Bool.and_eq_true, decide_eq_true_eq] at fits
    rw [split, if_neg fits.1, ih fits.2]

theorem lines_unlines (parts : List Bytes) : lines (unlines parts) = parts.flatMap (split 10) := by
  have rows : split 10 (unlines parts) = parts.flatMap (split 10) ++ [[]] := by
    induction parts with
    | nil => rfl
    | cons part rest ih =>
      have shape : unlines (part :: rest) = part ++ 10 :: unlines rest := by simp [unlines]
      rw [shape, split_append, ih, List.flatMap_cons, List.append_assoc]
  simp [lines, rows]

end Bytes

def codeRows (lines : List Line) : List Bytes :=
  (Bytes.lines (Bytes.unlines (lines.map Line.text))).filter (!·.isRemark)

@[simp] theorem codeRows_append (first second : List Line) :
    codeRows (first ++ second) = codeRows first ++ codeRows second := by
  simp only [codeRows, Bytes.lines_unlines, List.map_append, List.flatMap_append, List.filter_append]

theorem codeRows_cons (fits : line.text.isOneLine = true) (rest : List Line) :
    codeRows (line :: rest) = if line.text.isRemark then codeRows rest else line.text :: codeRows rest := by
  simp only [codeRows, Bytes.lines_unlines, List.map_cons, List.flatMap_cons, Bytes.split_of_isOneLine fits,
    List.singleton_append, List.filter_cons]
  split <;> simp_all

theorem Bytes.isOneLine_spaces (n : Nat) : (spaces n).isOneLine = true :=
  isOneLine_of_all (p := (· = 32)) (by decide) fun b member => by simpa using List.eq_of_mem_replicate member

namespace Lower

def Context.muted (ctx : Context) : Context := { ctx with comments := false }

theorem isOneLine_counted (before : front.isOneLine = true) (n : Int) (after : back.isOneLine = true) :
    (front ++ Bytes.ofInt n ++ back).isOneLine = true := by
  simp only [Bytes.isOneLine_append, Bytes.isOneLine_ofInt, before, after, Bool.and_self]

namespace Context

variable (ctx : Context)

theorem codeRows_comment (fits : text.isOneLine = true) : codeRows (ctx.comment text) = [] := by
  have shape : Line.text ⟨ctx.indent, .comment text⟩ = Bytes.spaces (4 * ctx.indent) ++ ("; " ++ text) := rfl
  have isRemark : (Line.text ⟨ctx.indent, .comment text⟩).isRemark = true := Bytes.isRemark_spaces _ _
  rw [comment]
  split
  · rw [codeRows_cons, if_pos isRemark]
    · rfl
    · rw [shape, Bytes.isOneLine_append, Bytes.isOneLine_append, Bytes.isOneLine_spaces, fits]
      decide
  · rfl

theorem codeRows_commentIf [Decidable p] (fits : text.isOneLine = true) :
    codeRows (if p then ctx.comment text else []) = [] := by
  split
  · exact ctx.codeRows_comment fits
  · rfl

theorem codeRows_label (l : Label) (rest : List Line) :
    codeRows (ctx.label l :: rest) = (ctx.label l).text :: codeRows rest := by
  have shape : (ctx.label l).text = Bytes.spaces (4 * ctx.indent) ++ (l.text ++ ":") := rfl
  have isCode : (ctx.label l).text.isRemark = false := by
    rw [shape, Bytes.isRemark_spaces]
    simp only [Label.text, List.append_assoc]
    rfl
  rw [codeRows_cons, isCode]
  · rfl
  · simp only [shape, Label.text, Bytes.isOneLine_append, Bytes.isOneLine_spaces, Bytes.isOneLine_ofNat]
    cases l.role <;> decide

end Context

structure Emitted.SameCode (first second : Emitted) : Prop where
  rows : codeRows first.lines = codeRows second.lines
  labels : first.labels = second.labels
  terminates : first.terminates = second.terminates
  error : first.error = second.error

theorem Emitted.SameCode.block (same : first.SameCode second) (ctx : Context) (cleanup : Int) :
    Emitted.SameCode
      (if first.terminates || cleanup ≤ 0 then first
        else { first with
          lines := first.lines ++ ctx.comment ("exiting block, pop " ++ Bytes.ofInt cleanup ++ " bytes")
            ++ ctx.code [.popBytes cleanup] })
      (if second.terminates || cleanup ≤ 0 then second
        else { second with
          lines := second.lines ++ ctx.muted.comment ("exiting block, pop " ++ Bytes.ofInt cleanup ++ " bytes")
            ++ ctx.muted.code [.popBytes cleanup] }) := by
  have leaves (c : Context) : codeRows (c.comment ("exiting block, pop " ++ Bytes.ofInt cleanup ++ " bytes")) = [] :=
    c.codeRows_comment (isOneLine_counted (by decide) cleanup (by decide))
  rw [← same.terminates]
  split
  · exact same
  · refine ⟨?_, same.labels, rfl, same.error⟩
    simp only [codeRows_append, leaves, same.rows]
    rfl

mutual

theorem statement_muted (fits : s.FitsLines) (ctx : Context) (labels : Nat) :
    (statement ctx labels s).SameCode (statement ctx.muted labels s) := by
  have own (c : Context) : codeRows (c.comment s.text) = [] := c.codeRows_comment (Stmt.isOneLine_text fits)
  match s with
  | .empty | .bare _ | .assembly _ _ => exact ⟨rfl, rfl, rfl, rfl⟩
  | .breakLoop _ _ | .continueLoop _ _ =>
    have leaves (c : Context) : codeRows (c.comment "break") = [] := c.codeRows_comment (by decide)
    have goesOn (c : Context) : codeRows (c.comment "continue") = [] := c.codeRows_comment (by decide)
    refine ⟨?_, rfl, rfl, rfl⟩
    simp only [statement, codeRows_append, leaves, goesOn]
    rfl
  | .ret _ _ _ | .declare _ _ =>
    refine ⟨?_, rfl, rfl, rfl⟩
    simp only [statement, codeRows_append, own]
    rfl
  | .evaluate _ e =>
    simp only [Stmt.text] at own
    refine ⟨?_, rfl, rfl, rfl⟩
    simp only [statement, codeRows_append, own]
    rfl
  | .stray _ inner =>
    simp only [Stmt.text] at own
    exact ⟨by simp only [statement, own], rfl, rfl, rfl⟩
  | .branch _ condition yes none =>
    have yesFits : yes.FitsLines := fits.child (by simp [Node.ofStmt]) (by simp +contextual [Node.children])
    have first := statement_muted yesFits ctx (labels + 1)
    refine ⟨?_, first.labels, rfl, ?_⟩
    · simp only [statement, codeRows_append, own, Context.codeRows_label, first.rows]
      rfl
    · simp only [statement, first.error]
  | .branch _ condition yes (some no) =>
    have yesFits : yes.FitsLines := fits.child (by simp [Node.ofStmt]) (by simp +contextual [Node.children])
    have noFits : no.FitsLines := fits.child (by simp [Node.ofStmt]) (by simp +contextual [Node.children, Node.ofStmt?])
    have first := statement_muted yesFits ctx (labels + 1)
    have second := statement_muted noFits ctx (statement ctx.muted (labels + 1) yes).labels
    refine ⟨?_, ?_, ?_, ?_⟩
    · simp only [statement, codeRows_append, own, Context.codeRows_label, first.rows, first.labels, first.terminates,
        second.rows]
      rfl
    · simp only [statement, first.labels, second.labels]
    · simp only [statement, first.labels, first.terminates, second.terminates]
    · simp only [statement, first.labels, first.error, second.error]
  | .whileLoop _ condition body =>
    have bodyFits : body.FitsLines := fits.child (by simp [Node.ofStmt]) (by simp +contextual [Node.children])
    have inner := statement_muted bodyFits
      { ctx with loop := some ⟨⟨labels + 1, .whileEnd⟩, ⟨labels + 1, .whileCondition⟩⟩ } (labels + 1)
    refine ⟨?_, inner.labels, rfl, ?_⟩
    · simp only [statement, codeRows_append, own, Context.codeRows_label, inner.rows]
      rfl
    · simp only [statement, inner.error]
      rfl
  | .forLoop _ init condition post body cleanup =>
    have bodyFits : body.FitsLines := fits.child (by simp [Node.ofStmt]) (by simp +contextual [Node.children])
    have test (c : Context) : codeRows (c.comment ("for condition: " ++ optionalText condition)) = [] := by
      refine c.codeRows_comment ?_
      rw [Bytes.isOneLine_append, fits.optional (by simp [Node.ofStmt]) (by simp +contextual [Node.children])]
      decide
    have next (c : Context) : codeRows (if post.isSome then c.comment "for incrementer" else []) = [] :=
      c.codeRows_commentIf (by decide)
    have leaves (c : Context) :
        codeRows (if 0 < cleanup then c.comment ("exiting for, popping " ++ Bytes.ofInt cleanup ++ " bytes") else []) = [] :=
      c.codeRows_commentIf (isOneLine_counted (by decide) cleanup (by decide))
    have inner (start : Nat) := statement_muted bodyFits
      { ctx with loop := some ⟨⟨labels + 1, .forEnd⟩, ⟨labels + 1, .forIncrement⟩⟩ } start
    match init with
    | none =>
      have inner := inner (labels + 1)
      refine ⟨?_, inner.labels, rfl, ?_⟩
      · simp only [statement, codeRows_append, own, test, next, leaves, Context.codeRows_label, inner.rows]
        rfl
      · simp only [statement, inner.error]
        rfl
    | some clause =>
      have clauseFits : clause.FitsLines :=
        fits.child (by simp [Node.ofStmt]) (by simp +contextual [Node.children, Node.ofStmt?])
      have starts (c : Context) : codeRows (c.comment "for initializer") = [] := c.codeRows_comment (by decide)
      have first := statement_muted clauseFits ctx (labels + 1)
      have inner := inner (statement ctx.muted (labels + 1) clause).labels
      refine ⟨?_, ?_, rfl, ?_⟩
      · simp only [statement, codeRows_append, own, starts, test, next, leaves, Context.codeRows_label, first.rows,
          first.labels, inner.rows]
        rfl
      · simp only [statement, first.labels, inner.labels]
        rfl
      · simp only [statement, first.labels, first.error, inner.error]
        rfl
  | .block _ body cleanup =>
    have bodyFits : ∀ t ∈ body, t.FitsLines := fun t member =>
      fits.child (by simp [Node.ofStmt]) fun part isPart => List.mem_flatMap.mpr ⟨t, member, isPart⟩
    have inner := statements_muted bodyFits { ctx with indent := ctx.indent + 1 } labels
    rw [statement, statement]
    exact inner.block _ cleanup
termination_by structural s

theorem statements_muted (fits : ∀ s ∈ body, s.FitsLines) (ctx : Context) (labels : Nat) :
    (statements ctx labels body).SameCode (statements ctx.muted labels body) := by
  match body with
  | [] => exact ⟨rfl, rfl, rfl, rfl⟩
  | s :: rest =>
    have first := statement_muted (fits s (by simp)) ctx labels
    have others := statements_muted (fun t later => fits t (List.mem_cons_of_mem s later)) ctx
      (statement ctx.muted labels s).labels
    rw [statements, statements, first.terminates]
    split
    · exact first
    · refine ⟨?_, ?_, ?_, ?_⟩
      · simp only [codeRows_append, first.rows, first.labels, others.rows]
      · simp only [first.labels, others.labels]
      · simp only [first.labels, others.terminates]
      · simp only [first.labels, first.error, others.error]
termination_by structural body

end

structure Mutes (settings other : Settings) : Prop where
  comments : other.features .asmComments = false
  cleanup : other.features .cleanupOnBreak = settings.features .cleanupOnBreak
  warnings : other.warnings = settings.warnings

theorem procedure_muted (mutes : Mutes settings other) (labels : Nat) (f : Function) (fits : body.FitsLines) :
    (procedure settings labels f body).SameCode (procedure other labels f body) := by
  have inner := statement_muted fits
    { comments := settings.features .asmComments, cleanupOnBreak := settings.features .cleanupOnBreak
      paramBytes := f.paramBytes } labels
  have starts (c : Context) : codeRows (c.comment "init stack frame") = [] := c.codeRows_comment (by decide)
  simp only [Context.muted] at inner
  simp only [procedure, mutes.comments, mutes.cleanup]
  refine ⟨?_, inner.labels, inner.terminates, inner.error⟩
  simp only [codeRows_append, starts, inner.rows, inner.terminates]
  rfl

end Lower

structure Generated.SameCode (first second : Generated) : Prop where
  rows : codeRows first.lines = codeRows second.lines
  problem : first.problem = second.problem
  warnings : first.warnings = second.warnings

theorem Lower.functions_muted (mutes : Mutes settings other)
    (fits : ∀ f ∈ table, ∀ body, f.body = some body → body.FitsLines) (needed : List Bytes) (labels : Nat) :
    (functions settings needed labels table).SameCode (functions other needed labels table) := by
  induction table generalizing labels with
  | nil => exact ⟨rfl, rfl, rfl⟩
  | cons f rest ih =>
    have others := ih fun g later => fits g (by simp [later])
    simp only [functions]
    cases implemented : f.body with
    | none => exact others labels
    | some body =>
      have own := procedure_muted mutes labels f (fits f (by simp) body implemented)
      have after := others (procedure other labels f body).labels
      dsimp only
      split
      · rw [own.error]
        cases (procedure other labels f body).error with
        | none =>
          refine ⟨?_, ?_, ?_⟩
          · simp only [codeRows_append, own.rows, own.labels, after.rows]
          · simp only [own.labels, after.problem]
          · simp only [own.labels, after.warnings]
        | some error => exact ⟨own.rows, rfl, rfl⟩
      · rw [mutes.warnings]
        split
        · have later := others labels
          exact ⟨later.rows, later.problem, congrArg (unusedWarning f :: ·) later.warnings⟩
        · exact others labels

theorem Program.generate_muted (mutes : Lower.Mutes settings other) {program : Program}
    (fits : ∀ f ∈ program.functions, ∀ body, f.body = some body → body.FitsLines) :
    (program.generate settings).SameCode (program.generate other) := by
  rw [generate, generate]
  cases program.reachable with
  | error error => exact ⟨rfl, rfl, rfl⟩
  | ok needed =>
    have code := Lower.functions_muted mutes fits needed 0
    refine ⟨?_, code.problem, code.warnings⟩
    simp only [codeRows_append, code.rows]

/-- Comments in a listing change neither its code nor its problem nor its warnings. -/
theorem comments_stay_silent {env : Env} {program : Program} (parsed : (parse env).program = .ok program)
    (settings : Settings) :
    (program.generate (settings.setFeature .asmComments true)).SameCode
      (program.generate (settings.setFeature .asmComments false)) := by
  obtain ⟨_, _, through⟩ := readThrough_of_parse parsed
  have mutes : Lower.Mutes (settings.setFeature .asmComments true) (settings.setFeature .asmComments false) := ⟨rfl, rfl, rfl⟩
  exact Program.generate_muted mutes fun f member body implemented => through.fitsLines member implemented

def echoing : Env where
  source :=
    { lines := #["int half(int n) \x7b return n >> 1; \x7d", "void main() \x7b for (int i = 0; i < 9; ++i) \x7b int a[2];",
        "while (half(i) != 0) \x7b if (i == a[1]) break; \x7d \x7d \x7d"]
      origins := #["echo.cb", "echo.cb", "echo.cb"] }
  settings := {}

theorem comments_stay_silent_echoing :
    ∃ program, (parse echoing).program = .ok program ∧
      (program.generate (echoing.settings.setFeature .asmComments false)).lines.length <
        (program.generate (echoing.settings.setFeature .asmComments true)).lines.length ∧
      (program.generate (echoing.settings.setFeature .asmComments true)).SameCode
        (program.generate (echoing.settings.setFeature .asmComments false)) := by
  have accepted : (parse echoing).program.toOption.any (fun program =>
      (program.generate (echoing.settings.setFeature .asmComments false)).lines.length <
        (program.generate (echoing.settings.setFeature .asmComments true)).lines.length) = true := by decide +kernel
  obtain ⟨program, parsed, echoes⟩ := exists_of_any accepted
  exact ⟨program, parsed, of_decide_eq_true echoes, comments_stay_silent parsed echoing.settings⟩

end Cb
