import Cb.Proofs.ExpressionNames
import Cb.Proofs.FrameLayout
import Cb.Proofs.ReadingOrder

/-! The names that a body uses: its variables are parameters and locals whose block is still open. -/

namespace Cb

def Function.Sees (f : Function) (locals : List Declaration) (name : Bytes) : Prop :=
  (∃ param ∈ f.params, param.name = name) ∨ (∃ entry ∈ locals, entry.name = name) ∨ name = returnAddressName ∨
    name = savedBaseName

def Function.names (f : Function) (table : List Function) (locals : List Declaration) : Names where
  isVariable := f.Sees locals
  isFunction name := name ∈ table.map (·.name)

/-- The text of statements uses only names that are in scope where they stand. Every piece of text belongs to one
statement, which starts at its own position, or lies between two of them. Only the lines of assembly code are free. -/
inductive Written (env : Env) (names : List Declaration → Names) : List Declaration → List Stmt → Position → Position → Prop
  | text {locals : List Declaration} {p q : Position} (uses : Uses env.source (names locals) p q) :
      Written env names locals [] p q
  | append {locals : List Declaration} {first rest : List Stmt} {p q t : Position} (written : Written env names locals first p q)
      (others : Written env names (Stmt.declared first ++ locals) rest q t) : Written env names locals (first ++ rest) p t
  | evaluate {locals : List Declaration} {p q : Position} (pos : Position) (e : Expr)
      (uses : Uses env.source (names locals) p q) : Written env names locals [.evaluate pos e] p q
  | breakLoop {locals : List Declaration} {p q : Position} (bytes : Int) (uses : Uses env.source (names locals) p q) :
      Written env names locals [.breakLoop p bytes] p q
  | continueLoop {locals : List Declaration} {p q : Position} (bytes : Int) (uses : Uses env.source (names locals) p q) :
      Written env names locals [.continueLoop p bytes] p q
  | ret {locals : List Declaration} {p q : Position} (value : Option Expr) (bytes : Int)
      (uses : Uses env.source (names locals) p q) : Written env names locals [.ret p value bytes] p q
  | assembly {locals : List Declaration} {lines : List Bytes} {r after : Reader}
      (read : Rule.assembly env r = .ok (.assembly r.pos lines) after) :
      Written env names locals [.assembly r.pos lines] r.pos after.pos
  /-- The new name stands after its type, and is not yet in scope in what follows it. -/
  | declare {locals : List Declaration} {p q t : Position} {entry : Declaration} (type : Uses env.source (names locals) p q)
      (isWord : env.source.wordAt q ≠ []) (new : lower (env.source.wordAt q) = entry.name)
      (uses : Uses env.source (names locals) (env.source.afterWord q) t) : Written env names locals [.declare p entry] p t
  | block {locals : List Declaration} {p q : Position} {body : List Stmt} (bytes : Int)
      (written : Written env names locals body p q) : Written env names locals [.block p body bytes] p q
  | branch {locals : List Declaration} {p q t : Position} {yes : Stmt} (condition : Option Expr)
      (head : Uses env.source (names locals) p q) (written : Written env names locals [yes] q t) :
      Written env names locals [.branch p condition yes none] p t
  | branchElse {locals : List Declaration} {p q t u v : Position} {yes no : Stmt} (condition : Option Expr)
      (head : Uses env.source (names locals) p q) (written : Written env names locals [yes] q t)
      (between : Uses env.source (names locals) t u) (other : Written env names locals [no] u v) :
      Written env names locals [.branch p condition yes (some no)] p v
  | whileLoop {locals : List Declaration} {p q t : Position} {body : Stmt} (condition : Option Expr)
      (head : Uses env.source (names locals) p q) (written : Written env names locals [body] q t) :
      Written env names locals [.whileLoop p condition body] p t
  /-- What the first clause declares is in scope in the other parts of the loop. -/
  | forLoop {locals : List Declaration} {p q t u v : Position} {init : Option Stmt} {body : Stmt}
      (condition post : Option Expr) (bytes : Int) (head : Uses env.source (names locals) p q)
      (first : Written env names locals init.toList q t)
      (clauses : Uses env.source (names (Stmt.declared init.toList ++ locals)) t u)
      (written : Written env names (Stmt.declared init.toList ++ locals) [body] u v) :
      Written env names locals [.forLoop p init condition post body bytes] p v

namespace Written

variable {env : Env} {names : List Declaration → Names} {locals : List Declaration} {body : List Stmt} {p q t : Position}

theorem after_text (uses : Uses env.source (names locals) p q) (written : Written env names locals body q t) :
    Written env names locals body p t := .append (.text uses) written

end Written

theorem Frame.name_of_findVariable? {f : Function} (params : frame.params = f.params) (declared : Locals frame locals)
    (found : (frame.scope.grow locals).findVariable? name = some v) :
    f.Sees locals (lower name) := by
  obtain ⟨named, same, member⟩ := Stack.slot_of_findFrom found
  rw [same] at member named
  generalize lower name = word at member named ⊢
  simp only [Scope.grow, scope_stack, params, List.mem_append, List.mem_flatMap, List.mem_cons, List.mem_map,
    List.mem_reverse, Entry.slot.injEq, List.not_mem_nil, or_false, reduceCtorEq] at member
  rcases member with ⟨entry, isLocal, isSlot⟩ | ⟨isBase, _⟩ | ⟨isReturn, _⟩ | ⟨param, isParam, isSlot⟩
  · refine .inr (.inl ⟨entry, isLocal, ?_⟩)
    rw [Declaration.slots] at isSlot
    rcases List.mem_cons.mp isSlot with isName | isStorage
    · obtain ⟨rfl, _⟩ := Entry.slot.inj isName
      exact (declared.lower_name isLocal).symm
    · -- the storage of an array has no name
      split at isStorage
      · exact absurd (Entry.slot.inj (List.mem_singleton.mp isStorage)).1 named
      · cases isStorage
  · exact .inr (.inr (.inr isBase))
  · exact .inr (.inr (.inl isReturn))
  · refine .inl ⟨param, isParam, ?_⟩
    have spelled : lower param.name = param.name := frame.lower_param (params ▸ isParam)
    obtain ⟨rfl, _⟩ := Entry.slot.inj isSlot
    exact spelled.symm

def Frame.Shows (frame : Frame) (names : List Declaration → Names) : Prop :=
  ∀ {s : Scope} {locals : List Declaration}, s.Represents frame locals → s.Shows (names locals)

theorem Frame.shows_names {frame : Frame} {f : Function} (params : frame.params = f.params)
    (known : frame.functions.map (·.name) ⊆ table.map (·.name)) : frame.Shows (f.names table) := by
  intro s locals holds
  refine ⟨holds.types, fun word v found => ?_, fun word g found => ?_⟩
  · rw [holds.findVariable?] at found
    have sees := Frame.name_of_findVariable? params holds.declared found
    rwa [lower_lower] at sees
  · have member : g ∈ frame.functions := holds.functions ▸ List.mem_of_find?_eq_some found
    have same : g.name = lower (lower word) := by simpa using List.find?_some found
    rw [lower_lower] at same
    exact known (same ▸ List.mem_map_of_mem member)

namespace Rule

variable {env : Env} {frame : Frame} {names : List Declaration → Names} {s : Scope} {locals : List Declaration}
  {p : Position}

def Writes (env : Env) (names : List Declaration → Names) (s : Scope) (locals : List Declaration) (rule : Rule Stmt) : Prop :=
  ∀ p, Passes env s p rule fun read _ q => Written env names locals [read] p q

theorem Writes.orElse (settles : Settles env grows spent rule) (first : Writes env names s locals rule)
    (second : Writes env names s locals other) : Writes env names s locals (orElse rule other) :=
  fun p => .orElse settles (first p) (second p)

variable {known : Names}

theorem condition_spells (shows : s.Shows known) (n : Nat) (c : Checkpoint) : Spells env known s (condition n c) := by
  have checked (test : Expr) : Spells env known s
      (if test.ty = .flags then pure test else reject c (.conditionType test.ty)) := by
    split
    · exact .pure
    · exact fun _ => .reject
  refine .bind (.orReject (expressionsSpell shows n).expression) fun e => ?_
  split
  · exact .bind .built checked
  · exact checked e

theorem tested_passes {α : Type} {word : Bytes} {next : Expr → Rule α} {text : α → Scope → Position → Prop}
    (listed : Reader.keywords.contains word = true) (shows : s.Shows known) (n : Nat)
    (passes : ∀ e q, Uses env.source known p q → Passes env s q (next e) text) :
    Passes env s p (do
      keyword word c
      skip
      expect '(' c
      skip
      let e ← condition n c
      skip
      expect ')' c
      skip
      next e) text := by
  exact .more (.done p) (.keyword listed) fun _ q used => .spaced rfl used fun q used => .more used .skip fun _ q used =>
    .more used (condition_spells shows n c) fun e q used => .spaced rfl used fun q used => .more used .skip fun _ q used =>
    passes e q used

theorem leaveLoop_writes (place : Place) (listed : Reader.keywords.contains text = true)
    (written : ∀ {p q : Position} (bytes : Int), Uses env.source (names locals) p q →
      Written env names locals [leave p bytes] p q) :
    Writes env names s locals (leaveLoop text reason leave place) := by
  intro p
  have start : Uses env.source (names locals) p p := .done p
  refine .checkpoint <| .more start (.keyword listed) fun _ q used => .spaced rfl used fun q used => ?_
  split
  · exact .reject
  · exact .scope <| .pure (written _ used)

theorem assembly_writes : Writes env names s locals assembly := by
  rintro _ r after read here rfl ran
  have shape : Passes env s r.pos assembly fun read _ _ => ∃ lines, read = .assembly r.pos lines := by
    refine .checkpoint <| .ignore fun _ _ _ => .ignore fun _ _ _ => .ignore fun _ _ _ => .ignore fun isAllowed _ _ => ?_
    split
    · exact .ignore fun _ _ _ => .ignore fun lines _ _ => .pure ⟨lines, rfl⟩
    · exact .reject
  obtain ⟨lines, rfl⟩ := shape r after read here rfl ran
  exact .assembly ran

theorem returnStatement_writes (shows : s.Shows (names locals)) (n : Nat) (place : Place) :
    Writes env names s locals (returnStatement n place) := by
  intro p
  have start : Uses env.source (names locals) p p := .done p
  refine .checkpoint <| .more start (.keyword rfl) fun _ q used => .more used .skip fun _ q used => ?_
  split
  · exact .more used (.expect rfl) fun _ q used => .scope <| .pure (.ret _ _ used)
  · refine .more used (.orReject (expressionsSpell shows n).expression) fun e q used => .spaced rfl used fun q used =>
    .more used .built fun result q used => ?_
    exact .scope <| .pure (.ret _ _ used)

theorem name_passes (c : Checkpoint) (what : Bytes) : Passes env s p (name c what)
    fun found t q => t = s ∧ q = env.source.afterWord p ∧ env.source.wordAt p ≠ [] ∧ found = lower (env.source.wordAt p) := by
  refine .word ?_
  dsimp only
  split
  · exact .reject
  · rename_i proper
    exact .pure ⟨rfl, rfl, ne_nil_of_lower fun nothing => proper (by rw [nothing]; rfl), rfl⟩

theorem checkNewName_spells (name : Bytes) (c : Checkpoint) : Spells env known s (checkNewName name c) := by
  refine .scope ?_
  split
  · exact fun _ => .reject
  · refine .scope ?_
    split
    · exact fun _ => .reject
    · exact .pure

theorem arrayDeclaration_passes (shows : s.Shows known) (n : Nat) (c : Checkpoint) (name : Bytes) (element : Ty) :
    Passes env s p (arrayDeclaration n c name element)
      fun read _ q => ∃ entry, read = .declare c.pos entry ∧ entry.name = name ∧ Uses env.source known p q := by
  have start : Uses env.source known p p := .done p
  refine .more start .isOn fun allowed q used => ?_
  split
  · exact .reject
  · refine .more used .skip fun _ q used =>
    .more used (.orReject (expressionsSpell shows n).expression) fun length q used => ?_
    split
    · exact .reject
    · split
      · exact .reject
      · refine .spaced rfl used fun q used => .spaced rfl used fun q used => .scope ?_
        exact .update (fun _ _ => ⟨rfl, rfl⟩) <| .pure ⟨_, rfl, rfl, used⟩

theorem declaration_writes (shows : s.Shows (names locals)) (n : Nat) : Writes env names s locals (declaration n) := by
  intro p
  refine .checkpoint <| .more (.done p) (.orReject (.dataType shows)) fun ty q type => ?_
  split
  · exact .reject
  · refine (name_passes _ _).bind fun name t q' read => ?_
    obtain ⟨rfl, rfl, isWord, rfl⟩ := read
    have begun : Uses env.source (names locals) (env.source.afterWord q) (env.source.afterWord q) := .done _
    refine .more begun (checkNewName_spells _ _) fun _ q' used => .more used .skip fun _ q' used =>
      .chooseMark rfl used (fun q' used => ?_) <| ?_
    · refine (arrayDeclaration_passes shows n _ _ _).imp fun read _ q'' outcome => ?_
      obtain ⟨entry, rfl, new, further⟩ := outcome
      exact .declare type isWord new.symm (used.trans further)
    · have finished (init : Option Expr) (q' : Position)
          (used : Uses env.source (names locals) (env.source.afterWord q) q') :
          Passes env t q' (expect ';' ⟨p, t.sizes⟩ >>= fun _ => Rule.scope >>= fun scope =>
            setScope (scope.defineVariable (lower (env.source.wordAt q)) ty).2 >>= fun _ =>
              pure (.declare p { name := lower (env.source.wordAt q), ty, init
                                 offset := (scope.defineVariable (lower (env.source.wordAt q)) ty).1 }))
            fun read _ q => Written env names locals [read] p q := by
        refine .more used (.expect rfl) fun _ q' used => .scope ?_
        exact .update (fun _ _ => ⟨rfl, rfl⟩) <| .pure (.declare type isWord rfl used)
      refine .chooseMark rfl used (fun q' used => ?_) (finished none _ used)
      exact .more used .skip fun _ q' used =>
        .more used (.orReject (expressionsSpell shows n).expression) fun e q' used => .more used .built fun e q' used =>
        .more used .skip fun _ q' used => finished (some e) q' used

theorem evaluation_writes (shows : s.Shows (names locals)) (n : Nat) : Writes env names s locals (evaluation n) := by
  intro p
  exact .checkpoint <| .more (.done p) (expressionsSpell shows n).expression fun e q used => .spaced rfl used fun q used =>
    .pure (.evaluate _ e used)

theorem initializer_passes (shows : s.Shows (names locals)) (n : Nat) (c : Checkpoint) :
    Passes env s p (initializer n c) fun init _ q => Written env names locals init.toList p q := by
  have start : Uses env.source (names locals) p p := .done p
  refine .chooseMark rfl start (fun q used => .pure (.text used)) ?_
  refine .optional (declaration_settles (n := n)) (declaration_writes shows n p) (fun read t q written => .pure written) ?_
  exact .more start (.orReject (expressionsSpell shows n).expression) fun e q used => .spaced rfl used fun q used =>
    .pure (.evaluate _ e used)

theorem loopCondition_spells (shows : s.Shows known) (n : Nat) (c : Checkpoint) :
    Spells env known s (loopCondition n c) := by
  refine .choose rfl .pure ?_
  exact .bind (condition_spells shows n c) fun e => .spaced rfl .pure

theorem incrementer_spells (shows : s.Shows known) (n : Nat) (c : Checkpoint) :
    Spells env known s (incrementer n c) := by
  refine .bind .peek fun code => ?_
  split
  · exact .bind (.expect rfl) fun _ => .pure
  · exact .bind (.orReject (expressionsSpell shows n).expression) fun e => .spaced rfl .pure

theorem exitBlock_passes : Passes env s p exitBlock fun _ _ q => q = p :=
  .scope <| .update (fun _ _ => ⟨rfl, rfl⟩) <| .pure rfl

def WritesIn (env : Env) (frame : Frame) (names : List Declaration → Names) (rule : Place → Rule Stmt) : Prop :=
  ∀ {s : Scope} {locals : List Declaration} {loop : Option (List Declaration)} {place : Place},
    s.Represents frame locals → place.Matches frame loop s → Writes env names s locals (rule place)

structure StatementsWrite (env : Env) (frame : Frame) (names : List Declaration → Names) (n : Nat) : Prop where
  statement : WritesIn env frame names (statement n)
  block : WritesIn env frame names (block n)
  items : ∀ {s : Scope} {locals : List Declaration} {loop : Option (List Declaration)} {place : Place},
    s.Represents frame locals → place.Matches frame loop s → ∀ c terminated warned p,
      Passes env s p (items n place c terminated warned) fun body _ q => Written env names locals body p q
  branch : WritesIn env frame names (branch n)
  loopBody : ∀ {s : Scope} {locals : List Declaration} {place : Place},
    s.Represents frame locals → place.returns = frame.returns → Writes env names s locals (loopBody n place)
  whileLoop : WritesIn env frame names (whileLoop n)
  forLoop : WritesIn env frame names (forLoop n)

namespace StatementsWrite

variable {n : Nat} {loop : Option (List Declaration)} {place : Place} (ih : StatementsWrite env frame names n)
  (holds : s.Represents frame locals) (inside : place.Matches frame loop s)

include ih holds inside

theorem statement_step (shows : frame.Shows names) : Writes env names s locals (Rule.statement (n + 1) place) := by
  have settles := statementsSettle env n
  intro p
  refine .peek ?_
  split
  · exact ih.block holds inside p
  · refine Writes.orElse (breakLoop_settles place) (leaveLoop_writes place rfl .breakLoop) ?_ p
    refine .orElse (continueLoop_settles place) (leaveLoop_writes place rfl .continueLoop) <|
      .orElse (assembly_settles place) assembly_writes <|
      .orElse (settles.branch place) (ih.branch holds inside) <| .orElse (settles.forLoop place) (ih.forLoop holds inside) <|
      .orElse (settles.whileLoop place) (ih.whileLoop holds inside) <| ?_
    exact .orElse (returnStatement_settles (n := n) place) (returnStatement_writes (shows holds) n place) <|
      .orElse (declaration_settles (n := n)) (declaration_writes (shows holds) n) (evaluation_writes (shows holds) n)

theorem block_step : Writes env names s locals (Rule.block (n + 1) place) := by
  intro p
  have start : Uses env.source (names locals) p p := .done p
  have opened : s.enterBlock.Extends s := .push s .blockMark
  have entered : place.Matches frame loop s.enterBlock := inside.extend opened
  refine .checkpoint <| .chooseMark rfl start (fun q used => .pure (.block 0 (.text used))) <|
    .chooseMark rfl start (fun q used => ?_) ?_
  · refine .update (fun _ here => ⟨rfl, congrArg Scope.enterBlock here⟩) ?_
    refine .more used .skip fun _ q used => (ih.items holds.enterBlock entered _ _ _ q).bind fun body t q' written => ?_
    refine exitBlock_passes.bind fun bytes u q'' same => ?_
    subst same
    exact .pure (.block bytes (.after_text used written))
  · refine .update (fun _ here => ⟨rfl, congrArg Scope.enterBlock here⟩) ?_
    refine (Passes.orRestore (ih.statement holds.enterBlock entered p)).bind fun read t q written => ?_
    refine exitBlock_passes.bind fun bytes u q' same => ?_
    subst same
    exact .pure (.block bytes written)

theorem items_step (c : Checkpoint) (terminated warned : Bool) (p : Position) :
    Passes env s p (Rule.items (n + 1) place c terminated warned) fun body _ q => Written env names locals body p q := by
  have start : Uses env.source (names locals) p p := .done p
  refine .chooseMark rfl start (fun q used => .pure (.text used)) <| .peek ?_
  split
  · exact .reject
  · refine .more start .position fun pos q used => ?_
    have first : Passes env s q (orRestore (Rule.statement n place) c) _ :=
      .orRestore ((Passes.of_settles ((statementsSettle env n).statement place)).and (ih.statement holds inside q))
    refine first.bind fun read t u outcome => ?_
    obtain ⟨⟨rfl, admits⟩, written⟩ := outcome
    have accepts := admits frame loop locals holds inside
    have grown : (s.grow read.declares).Represents frame (Stmt.declared [read] ++ locals) := by
      simpa only [Stmt.declared_singleton] using holds.grow accepts
    have others (v : Position) (blank : Uses env.source (names (Stmt.declared [read] ++ locals)) u v) :
        Passes env (s.grow read.declares) v (skip >>= fun _ =>
          Rule.items n place c (terminated || read.terminates) terminated >>= fun rest => pure (read :: rest))
          fun body _ q => Written env names locals body p q := by
      refine .more blank .skip fun _ v blank => ?_
      refine (ih.items grown (inside.extend (s.grow_extends _)) _ _ _ v).bind fun rest _ w writtenRest => ?_
      exact .pure (.append (.after_text used written) (.after_text blank writtenRest))
    split
    · exact .more (.done u) .warn fun _ v blank => others v blank
    · exact others u (.done u)

theorem branch_step (shows : frame.Shows names) : Writes env names s locals (Rule.branch (n + 1) place) := by
  intro p
  have closed (q : Position) (reason : Reason) : Passes env s q (orReject (Rule.block n place) ⟨p, s.sizes⟩ reason) _ :=
    .orReject ((Passes.of_settles ((statementsSettle env n).block place)).and (ih.block holds inside q))
  refine .checkpoint <| tested_passes rfl (shows holds) n fun e q used => ?_
  refine (closed q _).bind fun yes t u outcome => ?_
  obtain ⟨⟨rfl, _⟩, written⟩ := outcome
  have after : Uses env.source (names locals) u u := .done u
  refine .checkpoint <| .more after .skip fun _ v blank => ?_
  refine .whetherSpelled rfl blank rfl (fun v between => ?_) <| .pure (.branch (some e) used written)
  refine .more between .skip fun _ v between => (closed v _).bind fun no _ w outcome => ?_
  exact .pure (.branchElse (some e) used written between outcome.2)

theorem whileLoop_step (shows : frame.Shows names) : Writes env names s locals (Rule.whileLoop (n + 1) place) := by
  intro p
  refine .checkpoint <| tested_passes rfl (shows holds) n fun e q used => ?_
  refine (Passes.orReject (ih.loopBody holds inside.1 q)).bind fun body t u written => ?_
  exact .pure (.whileLoop (some e) used written)

theorem forLoop_step (shows : frame.Shows names) : Writes env names s locals (Rule.forLoop (n + 1) place) := by
  intro p
  have start : Uses env.source (names locals) p p := .done p
  refine .checkpoint <| .more start (.keyword rfl) fun _ q head => .spaced rfl head fun q head => .more head .skip fun _ q head =>
    .scope ?_
  have firstClause : Passes env s q (initializer n ⟨p, s.sizes⟩) _ :=
    (Passes.of_follows (initializer_follows place _)).and (initializer_passes (shows holds) n _)
  refine firstClause.bind fun init t u outcome => ?_
  obtain ⟨⟨rfl, admits⟩, first⟩ := outcome
  have grown := holds.grow (admits frame loop locals holds inside)
  have after : Uses env.source (names (Stmt.declared init.toList ++ locals)) u u := .done u
  refine .more after .skip fun _ v clauses => .more clauses (loopCondition_spells (shows grown) n _) fun e v clauses =>
    .more clauses .skip fun _ v clauses => .more clauses (incrementer_spells (shows grown) n _) fun post v clauses =>
    .more clauses .skip fun _ v clauses => ?_
  refine (Passes.orReject (ih.loopBody grown inside.1 v)).bind fun body t w written => .scope ?_
  exact .update (fun r here => ⟨rfl, congrArg (Scope.truncate · s.sizes) here⟩) <|
    .pure (.forLoop e post _ head first clauses written)

end StatementsWrite

theorem statementsWrite (env : Env) (shows : frame.Shows names) (n : Nat) : StatementsWrite env frame names n := by
  induction n with
  | zero => constructor <;> intros <;> first | exact .exhausted | exact fun _ => .exhausted | exact fun _ _ _ => .exhausted
  | succ n ih =>
    refine ⟨fun holds inside => ih.statement_step holds inside shows, fun holds inside => ih.block_step holds inside,
      fun holds inside => ih.items_step holds inside, fun holds inside => ih.branch_step holds inside shows, ?_,
      fun holds inside => ih.whileLoop_step holds inside shows, fun holds inside => ih.forLoop_step holds inside shows⟩
    intro s locals place holds returns p
    have inLoop : ({ place with loop := some s.height } : Place).Matches frame (some locals) s :=
      ⟨returns, [], s.stack, rfl, rfl, holds.stack⟩
    exact .scope (ih.block holds inLoop p)

end Rule

structure NamesDeclared (env : Env) (program : Program) (f : Function) (body : Stmt) : Prop where
  covers : ∀ node, (Node.stmt body).Contains node → ∃ inner, Stands [] [body] inner node
  inScope : ∀ inner info name offset, Stands [] [body] inner (.expr (.var info name offset)) → f.Sees inner (lower name)
  text : ∃ start stop rows bytes, body = .block start rows bytes ∧
    Written env (f.names program.functions) [] [body] start stop
  /-- No piece of the text goes past a word that is neither of the language nor a name in scope. -/
  unknown : ∀ inner p q, Uses env.source (f.names program.functions inner) p q → env.source.wordAt p ≠ [] →
    isReserved (env.source.wordAt p) = false → ¬ f.Sees inner (lower (env.source.wordAt p)) →
    lower (env.source.wordAt p) ∉ program.functions.map (·.name) → q = p

/-- In an accepted source every variable in a body is declared before its use and still in scope there, and every name that
is called is that of a function. -/
theorem names_declared {env : Env} {program : Program} (parsed : (parse env).program = .ok program) {f : Function}
    (member : f ∈ program.functions) {body : Stmt} (implemented : f.body = some body) :
    NamesDeclared env program f body := by
  obtain ⟨_, _, through⟩ := readThrough_of_parse parsed
  obtain ⟨_, frame, n, inside, outside, params, returns, known, opened, read⟩ := through.bodiesRead f member body implemented
  have place : ({ returns := f.returns } : Rule.Place).Matches frame none frame.scope := ⟨returns.symm, trivial⟩
  obtain ⟨_, accepts⟩ := Rule.block_accepts returns.symm opened read
  refine ⟨fun node within => accepts.stands (by simp) within, fun inner info name offset stands => ?_, ?_,
    fun inner p q uses => uses.eq_of_unknown⟩
  · obtain ⟨declared, typed⟩ := accepts.admits .nil stands
    cases typed with
    | var found =>
      obtain ⟨_, v, isFound, _⟩ := found
      exact Frame.name_of_findVariable? params declared isFound
  · obtain ⟨rows, bytes, rfl⟩ := Rule.block_isBlock read
    have written := (Rule.statementsWrite env (Frame.shows_names params known) n).block frame.scope_represents place
    exact ⟨_, _, rows, bytes, rfl, written inside.pos inside outside _ opened rfl read⟩

def summing : Env where
  source :=
    { lines := #["int sum(int n) \x7b int total = 0; for (int i = 0; i < n; ++i) \x7b byte b[2];",
        "total = total + i * sizeof(b); \x7d return total; \x7d"]
      origins := #["sum.cb", "sum.cb"] }
  settings := {}

theorem names_declared_summing :
    ∃ program f body, (parse summing).program = .ok program ∧ f ∈ program.functions ∧ f.body = some body ∧
      NamesDeclared summing program f body := by
  have accepted : (parse summing).program.toOption.any (·.functions.any (·.body.isSome)) = true := by decide +kernel
  obtain ⟨program, parsed, implements⟩ := exists_of_any accepted
  obtain ⟨f, member, isSome⟩ := List.any_eq_true.mp implements
  obtain ⟨body, implemented⟩ := Option.isSome_iff_exists.mp isSome
  exact ⟨program, f, body, parsed, member, implemented, names_declared parsed member implemented⟩

def returningAddress : Env where
  source := { lines := #["int f() \x7b return __return_address; \x7d"], origins := #["address.cb"] }
  settings := {}

def Function.returnsAddress (f : Function) : Bool :=
  match f.body with
  | some (.block _ [.ret _ (some (.var _ name _)) _] _) => name = returnAddressName && f.params.isEmpty
  | _ => false

theorem undeclared_returningAddress :
    ∃ program f body info offset, (parse returningAddress).program = .ok program ∧ f ∈ program.functions ∧
      f.body = some body ∧ Stands [] [body] [] (.expr (.var info returnAddressName offset)) ∧ f.params = [] := by
  have accepted : (parse returningAddress).program.toOption.any (·.functions.any Function.returnsAddress) = true := by
    decide +kernel
  obtain ⟨program, parsed, returns⟩ := exists_of_any accepted
  obtain ⟨f, member, returnsAddress⟩ := List.any_eq_true.mp returns
  rw [Function.returnsAddress] at returnsAddress
  split at returnsAddress
  · rename_i isBody
    simp only [Bool.and_eq_true, decide_eq_true_eq, List.isEmpty_iff] at returnsAddress
    obtain ⟨rfl, noParams⟩ := returnsAddress
    exact ⟨program, f, _, _, _, parsed, member, isBody,
      .row (List.mem_singleton.mpr rfl) (.tree (List.mem_singleton.mpr rfl) (.self _)), noParams⟩
  · cases returnsAddress

end Cb
