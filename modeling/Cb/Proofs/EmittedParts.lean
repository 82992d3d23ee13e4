import Cb.Lower.Program
import Cb.Proofs.Statics

/-! Where the code of each emitted statement stands, and which locals are in scope there. -/

namespace Cb

def Stmt.isSimple : Stmt → Bool
  | .block _ _ _ | .branch _ _ _ _ | .whileLoop _ _ _ | .forLoop _ _ _ _ _ _ => false
  | _ => true

namespace Lower

theorem statements_singleton (ctx : Context) (labels : Nat) (s : Stmt) :
    statements ctx labels [s] = statement ctx labels s := by
  simp only [statements]
  split
  · rfl
  · rename_i goes
    simp only [Bool.not_eq_true] at goes
    cases emitted : statement ctx labels s
    simp_all

theorem Context.code_append (ctx : Context) (first second : List Instr) :
    ctx.code (first ++ second) = ctx.code first ++ ctx.code second := List.map_append

mutual

theorem statement_grows (ctx : Context) (labels : Nat) (s : Stmt) : labels ≤ (statement ctx labels s).labels := by
  match s with
  | .branch _ _ yes none =>
    rw [statement]
    exact Nat.le_of_succ_le (statement_grows ctx _ yes)
  | .branch _ _ yes (some no) =>
    rw [statement]
    exact Nat.le_trans (Nat.le_of_succ_le (statement_grows ctx _ yes)) (statement_grows ctx _ no)
  | .whileLoop _ _ body =>
    rw [statement]
    exact Nat.le_of_succ_le (statement_grows _ _ body)
  | .forLoop _ none _ _ body _ =>
    rw [statement]
    exact Nat.le_of_succ_le (statement_grows _ _ body)
  | .forLoop _ (some clause) _ _ body _ =>
    rw [statement]
    exact Nat.le_trans (Nat.le_of_succ_le (statement_grows ctx _ clause)) (statement_grows _ _ body)
  | .block _ body _ =>
    have inside := statements_grows { ctx with indent := ctx.indent + 1 } labels body
    rw [statement]
    split <;> exact inside
  | .empty | .breakLoop _ _ | .continueLoop _ _ | .assembly _ _ | .ret _ _ _ | .declare _ _ | .evaluate _ _ | .bare _
  | .stray _ _ => rw [statement]
termination_by structural s

theorem statements_grows (ctx : Context) (labels : Nat) (body : List Stmt) :
    labels ≤ (statements ctx labels body).labels := by
  match body with
  | [] => exact Nat.le_refl _
  | s :: rest =>
    have first := statement_grows ctx labels s
    rw [statements]
    dsimp only
    split
    · exact first
    · exact Nat.le_trans first (statements_grows ctx _ rest)
termination_by structural body

end

structure Site where
  ctx : Context
  labels : Nat
  locals : List Declaration

namespace Site

variable (site : Site)

def emitted (s : Stmt) : Emitted := statement site.ctx site.labels s

def emittedAll (body : List Stmt) : Emitted := statements site.ctx site.labels body

def label (role : LabelRole) : Label := ⟨site.labels + 1, role⟩

def test (condition : Option Expr) (yes no : LabelRole) : List Line :=
  site.ctx.code ((conditionalJump condition (site.label yes)).1 ++ [.jump (site.label no)])

def following (s : Stmt) : Site :=
  { site with labels := (site.emitted s).labels, locals := s.declares ++ site.locals }

def inBlock : Site := { site with ctx := { site.ctx with indent := site.ctx.indent + 1 } }

def inside : Site := { site with labels := site.labels + 1 }

def inElse (yes : Stmt) : Site := { site with labels := (site.inside.emitted yes).labels }

def inWhile : Site :=
  { site.inside with ctx := { site.ctx with loop := some ⟨site.label .whileEnd, site.label .whileCondition⟩ } }

def initializer (init : Option Stmt) : Emitted :=
  match init with
  | some clause =>
    { site.inside.emitted clause with
      lines := site.ctx.comment "for initializer" ++ (site.inside.emitted clause).lines }
  | none => { labels := site.labels + 1 }

def inFor (init : Option Stmt) : Site where
  ctx := { site.ctx with loop := some ⟨site.label .forEnd, site.label .forIncrement⟩ }
  labels := (site.initializer init).labels
  locals := Stmt.declared init.toList ++ site.locals

def beforeWhile (condition : Option Expr) (s : Stmt) : List Line :=
  site.ctx.comment s.text ++ site.ctx.label (site.label .whileCondition) :: site.test condition .whileBody .whileEnd
    ++ [site.ctx.label (site.label .whileBody)]

def beforeFor (init : Option Stmt) (condition : Option Expr) (s : Stmt) : List Line :=
  site.ctx.comment s.text ++ (site.initializer init).lines
    ++ site.ctx.comment ("for condition: " ++ optionalText condition)
    ++ site.ctx.label (site.label .forCondition) :: site.test condition .forBody .forEnd
    ++ [site.ctx.label (site.label .forBody)]

def beforeYes (condition : Option Expr) (no : LabelRole) (s : Stmt) : List Line :=
  site.ctx.comment s.text ++ site.test condition .trueBranch no ++ [site.ctx.label (site.label .trueBranch)]

def beforeNo (yes : Stmt) : List Line :=
  site.ctx.code (if (site.inside.emitted yes).terminates then [] else [.jump (site.label .endIf)])
    ++ [site.ctx.label (site.label .falseBranch)]

@[simp] theorem emittedAll_nil : site.emittedAll [] = { labels := site.labels } := by simp [emittedAll, statements]

theorem emittedAll_singleton (s : Stmt) : site.emittedAll [s] = site.emitted s := statements_singleton site.ctx site.labels s

theorem initializer_eq (init : Option Stmt) :
    site.initializer init =
      { site.inside.emittedAll init.toList with
        lines := (if init.isSome then site.ctx.comment "for initializer" else [])
          ++ (site.inside.emittedAll init.toList).lines } := by
  cases init with
  | none => simp [initializer, inside]
  | some clause => simp [initializer, emittedAll_singleton]

theorem initializer_labels (init : Option Stmt) :
    (site.initializer init).labels = (site.inside.emittedAll init.toList).labels := by
  rw [initializer_eq]

theorem grows (s : Stmt) : site.labels ≤ (site.emitted s).labels := statement_grows site.ctx site.labels s

theorem growsAll (body : List Stmt) : site.labels ≤ (site.emittedAll body).labels :=
  statements_grows site.ctx site.labels body

theorem grows_initializer (init : Option Stmt) : site.labels + 1 ≤ (site.initializer init).labels := by
  rw [initializer_labels]
  exact site.inside.growsAll _

theorem emittedAll_of_terminates (stops : (site.emitted s).terminates = true) (rest : List Stmt) :
    site.emittedAll (s :: rest) = site.emitted s := by
  rw [emittedAll, statements]
  exact if_pos stops

theorem emittedAll_of_goes (goes : (site.emitted s).terminates = false) (rest : List Stmt) :
    site.emittedAll (s :: rest) =
      { (site.following s).emittedAll rest with
        lines := (site.emitted s).lines ++ ((site.following s).emittedAll rest).lines
        error := (site.emitted s).error <|> ((site.following s).emittedAll rest).error } := by
  rw [emittedAll, statements]
  exact if_neg (by rw [Bool.not_eq_true]; exact goes)

theorem emitted_evaluate (pos : Position) (e : Expr) :
    site.emitted (.evaluate pos e) =
      { lines := site.ctx.comment e.text ++ site.ctx.code (expression e).code
        labels := site.labels, error := (expression e).error } := by
  simp [emitted, statement]

theorem emitted_declare (pos : Position) (entry : Declaration) :
    site.emitted (.declare pos entry) =
      { lines := site.ctx.comment (Stmt.declare pos entry).text ++ site.ctx.code (declaration entry).code
        labels := site.labels, error := (declaration entry).error } := by
  simp [emitted, statement]

theorem emitted_ret (pos : Position) (value : Option Expr) (cleanup : Int) :
    site.emitted (.ret pos value cleanup) =
      { lines := site.ctx.comment (Stmt.ret pos value cleanup).text ++
          site.ctx.code ((value.elim {} returnValue).code ++ release cleanup ++ epilogue site.ctx.paramBytes)
        labels := site.labels, terminates := true, error := (value.elim {} returnValue).error } := by
  simp [emitted, statement]

def beforeLeave (text : Bytes) (cleanup : Int) : List Line :=
  site.ctx.comment text ++ site.ctx.code (if site.ctx.cleanupOnBreak then release cleanup else [])

def leave (text : Bytes) (cleanup : Int) (l : Label) : Emitted :=
  { lines := site.beforeLeave text cleanup ++ site.ctx.code [.jump l], labels := site.labels, terminates := true }

theorem emitted_breakLoop (isLoop : site.ctx.loop = some exits) (pos : Position) (cleanup : Int) :
    site.emitted (.breakLoop pos cleanup) = site.leave "break" cleanup exits.breaks := by
  simp [emitted, statement, jumpOut, isLoop, leave, beforeLeave, Context.code_append]

theorem emitted_continueLoop (isLoop : site.ctx.loop = some exits) (pos : Position) (cleanup : Int) :
    site.emitted (.continueLoop pos cleanup) = site.leave "continue" cleanup exits.continues := by
  simp [emitted, statement, jumpOut, isLoop, leave, beforeLeave, Context.code_append]

theorem emitted_block (pos : Position) (body : List Stmt) (cleanup : Int) :
    site.emitted (.block pos body cleanup) =
      if (site.inBlock.emittedAll body).terminates || cleanup ≤ 0 then site.inBlock.emittedAll body
      else { site.inBlock.emittedAll body with
        lines := (site.inBlock.emittedAll body).lines
          ++ site.inBlock.ctx.comment ("exiting block, pop " ++ Bytes.ofInt cleanup ++ " bytes")
          ++ site.inBlock.ctx.code [.popBytes cleanup] } := by
  rw [emitted, statement]
  rfl

theorem emitted_branch (pos : Position) (condition : Option Expr) (yes : Stmt) :
    site.emitted (.branch pos condition yes none) =
      { lines := site.beforeYes condition .endIf (.branch pos condition yes none) ++ (site.inside.emitted yes).lines
          ++ [site.ctx.label (site.label .endIf)]
        labels := (site.inside.emitted yes).labels
        error := (conditionalJump condition (site.label .trueBranch)).2 <|> (site.inside.emitted yes).error } := by
  simp [emitted, statement, beforeYes, test, inside, label]

theorem emitted_branchElse (pos : Position) (condition : Option Expr) (yes no : Stmt) :
    site.emitted (.branch pos condition yes (some no)) =
      { lines := site.beforeYes condition .falseBranch (.branch pos condition yes (some no))
          ++ (site.inside.emitted yes).lines ++ site.beforeNo yes ++ ((site.inElse yes).emitted no).lines
          ++ [site.ctx.label (site.label .endIf)]
        labels := ((site.inElse yes).emitted no).labels
        terminates := (site.inside.emitted yes).terminates && ((site.inElse yes).emitted no).terminates
        error := (conditionalJump condition (site.label .trueBranch)).2 <|> (site.inside.emitted yes).error
          <|> ((site.inElse yes).emitted no).error } := by
  simp [emitted, statement, beforeYes, beforeNo, test, inside, inElse, label]
  rfl

theorem emitted_whileLoop (pos : Position) (condition : Option Expr) (body : Stmt) :
    site.emitted (.whileLoop pos condition body) =
      { lines := site.beforeWhile condition (.whileLoop pos condition body) ++ (site.inWhile.emitted body).lines
          ++ site.ctx.code [.jump (site.label .whileCondition)] ++ [site.ctx.label (site.label .whileEnd)]
        labels := (site.inWhile.emitted body).labels
        error := (conditionalJump condition (site.label .whileBody)).2 <|> (site.inWhile.emitted body).error } := by
  simp [emitted, statement, beforeWhile, test, inside, inWhile, label]

theorem emitted_forLoop (pos : Position) (init : Option Stmt) (condition post : Option Expr) (body : Stmt)
    (cleanup : Int) :
    site.emitted (.forLoop pos init condition post body cleanup) =
      { lines := site.beforeFor init condition (.forLoop pos init condition post body cleanup)
          ++ ((site.inFor init).emitted body).lines
          ++ (site.ctx.label (site.label .forIncrement) ::
            (if post.isSome then site.ctx.comment "for incrementer" else [])
            ++ site.ctx.code ((post.elim {} expression).code ++ [.jump (site.label .forCondition)]))
          ++ (site.ctx.label (site.label .forEnd) ::
            (if 0 < cleanup then site.ctx.comment ("exiting for, popping " ++ Bytes.ofInt cleanup ++ " bytes") else [])
            ++ site.ctx.code (release cleanup))
        labels := ((site.inFor init).emitted body).labels
        error := (site.initializer init).error <|> (conditionalJump condition (site.label .forBody)).2
          <|> ((site.inFor init).emitted body).error <|> (post.elim {} expression).error } := by
  cases init <;> simp [emitted, statement, beforeFor, initializer, test, inside, inFor, label]

end Site

inductive Part : Site → List Stmt → List Line → Site → Stmt → Prop
  | here {site : Site} {s : Stmt} {rest : List Stmt} : Part site (s :: rest) [] site s
  | later {site inner : Site} {s t : Stmt} {rest : List Stmt} {before : List Line}
      (goes : (site.emitted s).terminates = false) (part : Part (site.following s) rest before inner t) :
      Part site (s :: rest) ((site.emitted s).lines ++ before) inner t
  | block {site inner : Site} {pos : Position} {body rest : List Stmt} {cleanup : Int} {before : List Line} {t : Stmt}
      (part : Part site.inBlock body before inner t) : Part site (.block pos body cleanup :: rest) before inner t
  | yes {site inner : Site} {pos : Position} {condition : Option Expr} {yes t : Stmt} {rest : List Stmt}
      {before : List Line} (part : Part site.inside [yes] before inner t) :
      Part site (.branch pos condition yes none :: rest)
        (site.beforeYes condition .endIf (.branch pos condition yes none) ++ before) inner t
  | yesOr {site inner : Site} {pos : Position} {condition : Option Expr} {yes no t : Stmt} {rest : List Stmt}
      {before : List Line} (part : Part site.inside [yes] before inner t) :
      Part site (.branch pos condition yes (some no) :: rest)
        (site.beforeYes condition .falseBranch (.branch pos condition yes (some no)) ++ before) inner t
  | no {site inner : Site} {pos : Position} {condition : Option Expr} {yes no t : Stmt} {rest : List Stmt}
      {before : List Line} (part : Part (site.inElse yes) [no] before inner t) :
      Part site (.branch pos condition yes (some no) :: rest)
        (site.beforeYes condition .falseBranch (.branch pos condition yes (some no)) ++ (site.inside.emitted yes).lines
          ++ site.beforeNo yes ++ before) inner t
  | whileBody {site inner : Site} {pos : Position} {condition : Option Expr} {body t : Stmt} {rest : List Stmt}
      {before : List Line} (part : Part site.inWhile [body] before inner t) :
      Part site (.whileLoop pos condition body :: rest)
        (site.beforeWhile condition (.whileLoop pos condition body) ++ before) inner t
  | forInit {site inner : Site} {pos : Position} {clause body t : Stmt} {condition post : Option Expr} {cleanup : Int}
      {rest : List Stmt} {before : List Line} (part : Part site.inside [clause] before inner t) :
      Part site (.forLoop pos (some clause) condition post body cleanup :: rest)
        (site.ctx.comment (Stmt.forLoop pos (some clause) condition post body cleanup).text
          ++ site.ctx.comment "for initializer" ++ before) inner t
  | forBody {site inner : Site} {pos : Position} {init : Option Stmt} {body t : Stmt} {condition post : Option Expr}
      {cleanup : Int} {rest : List Stmt} {before : List Line} (part : Part (site.inFor init) [body] before inner t) :
      Part site (.forLoop pos init condition post body cleanup :: rest)
        (site.beforeFor init condition (.forLoop pos init condition post body cleanup) ++ before) inner t

namespace Part

variable {site inner : Site} {s t : Stmt}

theorem first_or_later (part : Part site (s :: rest) before inner t) :
    Part site [s] before inner t ∨ (site.emitted s).terminates = false ∧
      ∃ rear, before = (site.emitted s).lines ++ rear ∧ Part (site.following s) rest rear inner t := by
  cases part with
  | here => exact .inl .here
  | later goes part => exact .inr ⟨goes, _, rfl, part⟩
  | block part => exact .inl (.block part)
  | yes part => exact .inl (.yes part)
  | yesOr part => exact .inl (.yesOr part)
  | no part => exact .inl (.no part)
  | whileBody part => exact .inl (.whileBody part)
  | forInit part => exact .inl (.forInit part)
  | forBody part => exact .inl (.forBody part)

theorem simple (part : Part site [s] before inner t) (simple : s.isSimple = true) :
    before = [] ∧ inner = site ∧ t = s := by
  cases part with
  | here => exact ⟨rfl, rfl, rfl⟩
  | later _ part => cases part
  | block | yes | yesOr | no | whileBody | forInit | forBody => cases simple

theorem lines_of_first (isFirst : ∃ after, (site.emitted s).lines = lines ++ after) :
    ∃ after, (site.emittedAll (s :: rest)).lines = lines ++ after := by
  obtain ⟨after, shape⟩ := isFirst
  cases stops : (site.emitted s).terminates with
  | true =>
    rw [site.emittedAll_of_terminates stops]
    exact ⟨after, shape⟩
  | false =>
    rw [site.emittedAll_of_goes stops, shape]
    exact ⟨after ++ ((site.following s).emittedAll rest).lines, by simp⟩

theorem lines_of_clause {within : Site} (inside : ∃ after, (within.emittedAll [clause]).lines = before ++ code ++ after)
    (shape : ∃ after, (site.emitted s).lines = front ++ ((within.emitted clause).lines ++ after)) :
    ∃ after, (site.emittedAll (s :: rest)).lines = front ++ before ++ code ++ after := by
  obtain ⟨inner, isInner⟩ := inside
  obtain ⟨outer, isOuter⟩ := shape
  rw [within.emittedAll_singleton] at isInner
  refine lines_of_first ⟨inner ++ outer, ?_⟩
  rw [isOuter, isInner]
  simp

theorem lines_eq (part : Part site body before inner t) :
    ∃ after, (site.emittedAll body).lines = before ++ (inner.emitted t).lines ++ after := by
  induction part with
  | here => exact lines_of_first ⟨[], by simp⟩
  | @later site inner s t rest before goes _ ih =>
    obtain ⟨after, shape⟩ := ih
    rw [site.emittedAll_of_goes goes, shape]
    exact ⟨after, by simp⟩
  | @block site inner pos body rest cleanup before t _ ih =>
    obtain ⟨after, shape⟩ := ih
    refine lines_of_first ?_
    rw [site.emitted_block]
    split
    · exact ⟨after, shape⟩
    · rw [shape]
      exact ⟨_, by simp only [List.append_assoc]; rfl⟩
  | yes _ ih =>
    refine lines_of_clause ih ?_
    rw [Site.emitted_branch]
    exact ⟨_, List.append_assoc ..⟩
  | yesOr _ ih =>
    refine lines_of_clause ih ?_
    rw [Site.emitted_branchElse]
    exact ⟨_, by simp only [List.append_assoc]; rfl⟩
  | no _ ih =>
    refine lines_of_clause ih ?_
    rw [Site.emitted_branchElse]
    exact ⟨_, List.append_assoc ..⟩
  | whileBody _ ih =>
    refine lines_of_clause ih ?_
    rw [Site.emitted_whileLoop]
    exact ⟨_, by simp only [List.append_assoc]; rfl⟩
  | forInit _ ih =>
    refine lines_of_clause ih ?_
    rw [Site.emitted_forLoop, Site.beforeFor, Site.initializer]
    exact ⟨_, by simp only [List.append_assoc]; rfl⟩
  | forBody _ ih =>
    refine lines_of_clause ih ?_
    rw [Site.emitted_forLoop]
    exact ⟨_, by simp only [List.append_assoc]; rfl⟩

end Part

variable (settings : Settings) (needed : List Bytes)

def bodySite (labels : Nat) (f : Function) : Site where
  ctx :=
    { comments := settings.features .asmComments, cleanupOnBreak := settings.features .cleanupOnBreak
      paramBytes := f.paramBytes }
  labels
  locals := []

def opening (f : Function) : List Line :=
  let inside : Context := { (bodySite settings 0 f).ctx with indent := 1 }
  [⟨0, .comment f.text⟩, ⟨0, .procedure f.name⟩] ++ inside.comment "init stack frame"
    ++ inside.code [.push (register .base), .mov (register .base) (register .stack)]

def closing (f : Function) (returned : Bool) : List Line :=
  let inside : Context := { (bodySite settings 0 f).ctx with indent := 1 }
  inside.code (if returned then [] else epilogue f.paramBytes) ++ [⟨0, .endProcedure f.name⟩, ⟨0, .blank⟩]

theorem procedure_eq (labels : Nat) (f : Function) (body : Stmt) :
    procedure settings labels f body =
      let emitted := (bodySite settings labels f).emitted body
      { emitted with lines := opening settings f ++ emitted.lines ++ closing settings f emitted.terminates } := by
  simp only [procedure, opening, closing, List.append_assoc]
  rfl

theorem procedure_grows (labels : Nat) (f : Function) (body : Stmt) : labels ≤ (procedure settings labels f body).labels := by
  rw [procedure_eq]
  exact (bodySite settings labels f).grows body

inductive Emits : Nat → List Function → List Line → Nat → Function → Stmt → Prop
  | here {labels : Nat} {f : Function} {rest : List Function} {body : Stmt} (implemented : f.body = some body)
      (used : needed.contains f.name = true) : Emits labels (f :: rest) [] labels f body
  | later {labels start : Nat} {f g : Function} {rest : List Function} {body code : Stmt} {before : List Line}
      (implemented : f.body = some body) (used : needed.contains f.name = true)
      (fine : (procedure settings labels f body).error = none)
      (others : Emits (procedure settings labels f body).labels rest before start g code) :
      Emits labels (f :: rest) ((procedure settings labels f body).lines ++ before) start g code
  | skip {labels start : Nat} {f g : Function} {rest : List Function} {code : Stmt} {before : List Line}
      (left : f.body = none ∨ needed.contains f.name = false) (others : Emits labels rest before start g code) :
      Emits labels (f :: rest) before start g code

variable {settings needed} {labels start : Nat} {f g : Function} {rest : List Function} {body code : Stmt}
  {before : List Line}

theorem functions_lines_of_used (implemented : f.body = some body) (used : needed.contains f.name = true)
    (fine : (procedure settings labels f body).error = none) :
    (functions settings needed labels (f :: rest)).lines =
      (procedure settings labels f body).lines
        ++ (functions settings needed (procedure settings labels f body).labels rest).lines := by
  simp only [functions, implemented, used, fine, ↓reduceIte]

theorem functions_lines_of_left (left : f.body = none ∨ needed.contains f.name = false) :
    (functions settings needed labels (f :: rest)).lines = (functions settings needed labels rest).lines := by
  cases implemented : f.body with
  | none => simp only [functions, implemented]
  | some body =>
    rcases left with missing | unused
    · cases implemented.symm.trans missing
    · simp only [functions, implemented, unused, Bool.false_eq_true, ↓reduceIte]
      split <;> rfl

/-- Lowering passes over the functions in order: each is left out, or its procedure stands before the others. -/
@[elab_as_elim]
theorem functions_induction (settings : Settings) (needed : List Bytes) {holds : Nat → List Function → Prop}
    {good : Nat → Function → Stmt → Prop} (list : List Function)
    (each : ∀ f ∈ list, ∀ body, f.body = some body → ∀ labels, good labels f body) (nil : ∀ labels, holds labels [])
    (skip : ∀ {labels f rest}, f.body = none ∨ needed.contains f.name = false → holds labels rest → holds labels (f :: rest))
    (cons : ∀ {labels f body rest}, f.body = some body → needed.contains f.name = true → good labels f body →
      holds (procedure settings labels f body).labels rest → holds labels (f :: rest)) (labels : Nat) :
    holds labels list := by
  induction list generalizing labels with
  | nil => exact nil labels
  | cons f rest ih =>
    have others := ih fun g member => each g (by simp [member])
    by_cases left : f.body = none ∨ needed.contains f.name = false
    · exact skip left (others labels)
    · simp only [not_or, Bool.not_eq_false] at left
      obtain ⟨body, implemented⟩ := Option.ne_none_iff_exists'.mp left.1
      exact cons implemented left.2 (each f (by simp) body implemented labels) (others _)

namespace Emits

theorem implemented (emits : Emits settings needed labels rest before start g code) : g ∈ rest ∧ g.body = some code := by
  induction emits with
  | here implemented _ => exact ⟨by simp, implemented⟩
  | later _ _ _ _ ih => exact ⟨by simp [ih.1], ih.2⟩
  | skip _ _ ih => exact ⟨by simp [ih.1], ih.2⟩

theorem lines_eq (emits : Emits settings needed labels rest before start g code) :
    ∃ after, (functions settings needed labels rest).lines =
      before ++ (procedure settings start g code).lines ++ after := by
  induction emits with
  | @here labels f rest body implemented used =>
    simp only [functions, implemented, used, ↓reduceIte]
    split
    · exact ⟨[], by simp⟩
    · exact ⟨_, by rw [List.nil_append]⟩
  | later implemented used fine _ ih =>
    obtain ⟨after, shape⟩ := ih
    rw [functions_lines_of_used implemented used fine, shape]
    exact ⟨after, by simp⟩
  | skip left _ ih =>
    rw [functions_lines_of_left left]
    exact ih

end Emits

end Lower

end Cb
