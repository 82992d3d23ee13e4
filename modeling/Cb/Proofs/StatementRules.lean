import Cb.Proofs.ExpressionRules
import Cb.Proofs.Layout

/-! The rules for statements get on or are undone. They read bodies that the statics accept, and leave exactly the
declared locals in scope. -/

namespace Cb

structure Scope.Represents (s : Scope) (frame : Frame) (locals : List Declaration) : Prop where
  types : s.types = Ty.builtins
  functions : s.functions = frame.functions
  stack : s.stack.unmarked = (frame.scope.grow locals).stack
  declared : Locals frame locals

namespace Scope.Represents

variable {s : Scope} {frame : Frame} {locals : List Declaration}

theorem findVariable? (holds : s.Represents frame locals) (name : Bytes) :
    s.findVariable? name = (frame.scope.grow locals).findVariable? name := by
  simp only [Scope.findVariable?, ← holds.stack]
  exact (Stack.findFrom_unmarked (lower name) [] s.stack).symm

theorem offers (holds : s.Represents frame locals) : s.Offers (frame.vocabulary locals) where
  types := holds.types
  names := by
    intro word v found
    rw [holds.findVariable?] at found
    exact ⟨holds.declared.found_isValue found, v, found, rfl, rfl⟩
  callees := by
    intro name f found
    exact ⟨f, holds.functions ▸ List.mem_of_find?_eq_some found, rfl⟩

theorem localBytes (holds : s.Represents frame locals) : s.localBytes = localsBytes locals := by
  rw [← holds.declared.localBytes, Scope.localBytes, Scope.localBytes, ← holds.stack, Stack.localBytes_unmarked]

theorem enterBlock (holds : s.Represents frame locals) : s.enterBlock.Represents frame locals :=
  ⟨holds.types, holds.functions, by simpa [Scope.enterBlock, Scope.push] using holds.stack, holds.declared⟩

theorem grow (holds : s.Represents frame locals) (accepts : Accepts frame loop locals body) :
    (s.grow (Stmt.declared body)).Represents frame (Stmt.declared body ++ locals) where
  types := holds.types
  functions := holds.functions
  stack := by
    simp only [Scope.grow, Stack.unmarked_append, unmarked_flatMap_slots, holds.stack, List.flatMap_append,
      List.append_assoc]
  declared := accepts.locals holds.declared

theorem offset (holds : s.Represents frame locals) (plain : Stack.AreLocal above) :
    Stack.offset [] (above ++ s.stack) = -(localsBytes locals + Stack.bytes above) := by
  rw [Stack.offset, Stack.belowBase?_append plain, ← Stack.belowBase?_unmarked s.stack, holds.stack,
    holds.declared.belowBase]
  rfl

end Scope.Represents

theorem Frame.scope_represents (frame : Frame) : frame.scope.Represents frame [] where
  types := frame.scope_types
  functions := frame.scope_functions
  stack := by
    have slots (params : List Param) : Stack.unmarked (params.map Param.slot) = params.map Param.slot := by
      induction params with
      | nil => rfl
      | cons param rest ih => rw [List.map_cons, Param.slot, Stack.unmarked_slot, ih]
    simp only [Scope.grow_nil, frame.scope_stack, Stack.unmarked_slot, Stack.unmarked_append, slots,
      Stack.unmarked_functionMark, Stack.unmarked_nil]
  declared := .nil

def Rule.Place.Matches (place : Place) (frame : Frame) (loop : Option (List Declaration)) (s : Scope) : Prop :=
  place.returns = frame.returns ∧ match loop, place.loop with
    | some outer, some height => ∃ above base, s.stack = above ++ base ∧ base.length = height ∧
        base.unmarked = (frame.scope.grow outer).stack
    | none, none => True
    | _, _ => False

namespace Rule.Place.Matches

variable {place : Place} {frame : Frame} {loop : Option (List Declaration)} {s : Scope}

theorem extend (inside : place.Matches frame loop s) (later : t.Extends s) : place.Matches frame loop t := by
  obtain ⟨_, _, newer, grown⟩ := later
  refine ⟨inside.1, ?_⟩
  have position := inside.2
  split at position
  · obtain ⟨above, base, split, rest⟩ := position
    exact ⟨newer ++ above, base, by rw [grown, split, List.append_assoc], rest⟩
  · trivial
  · exact position.elim

theorem bytesSince (inside : place.Matches frame loop s) (looped : place.loop = some height)
    (holds : s.Represents frame locals) :
    ∃ outer, loop = some outer ∧ s.bytesSince height = localsBytes locals - localsBytes outer := by
  have position := inside.2
  rw [looped] at position
  cases loop with
  | none => exact position.elim
  | some outer =>
    obtain ⟨above, base, split, rfl, older⟩ := position
    refine ⟨outer, rfl, ?_⟩
    have taken : s.stack.take (s.stack.length - base.length) = above := by simp [split]
    have counted := congrArg Stack.bytes holds.stack
    rw [split, Stack.unmarked_append, Stack.bytes_append, older, Stack.bytes_unmarked] at counted
    simp only [Scope.grow, Stack.bytes_append, bytes_flatMap_slots] at counted
    rw [Scope.bytesSince, Stack.bytesSince, taken]
    omega

end Rule.Place.Matches

theorem Scope.grow_extends (s : Scope) (locals : List Declaration) : (s.grow locals).Extends s := ⟨rfl, rfl, _, rfl⟩

theorem Scope.Extends.rewound {s t : Scope} (later : t.Extends s) {c : Checkpoint} (own : c.sizes = s.sizes) :
    t.truncate c.sizes = s := by
  rw [own, later.truncate]

namespace Rule

variable {env : Env} {n : Nat}

def Stalls (env : Env) (n : Nat) (pos : Position) : Prop :=
  ∃ there, env.source.Ahead pos there ∧ Call.expression.exhaustsAt env n there

theorem Stalls.since (stalls : Stalls env n later) (ahead : env.source.Ahead pos later) :
    Stalls env n pos := by
  obtain ⟨there, further, ran⟩ := stalls
  exact ⟨there, ahead.trans further, ran⟩

section

variable {c : Checkpoint} {o : Attempt env c} {moved : Bool}

theorem stallHere (exhausts : Stalls env n o.entry → o.spent) :
    o.Covers moved (Call.expression.exhaustsAt env n) :=
  fun pos here ran => exhausts ⟨pos, here.ahead, ran⟩

theorem stallSince (exhausts : Stalls env n o.entry → o.spent) : o.Covers moved (Stalls env n) :=
  fun _ here stalls => exhausts (stalls.since here.ahead)

theorem stallLater {caller : Call} (exhausts : caller.Blames env n o.entry → o.spent) :
    o.Covers true (Stalls env n) := by
  rintro pos later ⟨there, ahead, ran⟩
  exact exhausts (.later (Source.Later.then_ahead later ahead) ran)

end

def Place.Admits (place : Place) (body : List Stmt) (s : Scope) : Prop :=
  ∀ frame loop locals, s.Represents frame locals → place.Matches frame loop s → Accepts frame loop locals body

def Grown (place : Place) (read : Stmt) (s t : Scope) : Prop := t = s.grow read.declares ∧ place.Admits [read] s

def Closed (place : Place) (read : Stmt) (s t : Scope) : Prop := t = s ∧ read.declares = [] ∧ place.Admits [read] s

def Declared (read : Stmt) (s t : Scope) : Prop :=
  t = s.grow read.declares ∧ (∃ pos entry, read = .declare pos entry) ∧ ∀ place : Place, place.Admits [read] s

def Deeper (place : Place) (body : List Stmt) (s t : Scope) : Prop :=
  t = s.grow (Stmt.declared body) ∧ place.Admits body s

def Looped (place : Place) (read : Stmt) (s t : Scope) : Prop :=
  t = s ∧ read.declares = [] ∧ ∀ frame locals, s.Represents frame locals → place.returns = frame.returns →
    Accepts frame (some locals) locals [read]

def IsTest (e : Expr) (s : Scope) : Prop := ∀ frame locals, s.Represents frame locals → frame.IsCondition locals e

theorem condition_follows (c : Checkpoint) : Follows env c (Yields IsTest) (Stalls env n) (condition n c) := by
  refine .start fun o s _ exhausts => ?_
  refine .read (expressionsSettle env n).expression (stallHere exhausts) fun e offered => ?_
  have checked (test : Expr)
      (built : ∀ frame locals, s.Represents frame locals → Built (frame.vocabulary locals) test) :
      Runs o true s (if test.ty = .flags then pure test else reject c (.conditionType test.ty))
        fun value _ t => Yields IsTest value s t := by
    split
    · rename_i isFlags
      exact .pure ⟨rfl, fun frame locals holds => ⟨built frame locals holds, isFlags⟩⟩
    · exact .reject
  split
  · rename_i compared
    refine .whenBuilt fun test made => checked test fun frame locals holds => ?_
    have built := offered _ holds.offers
    have isValue : e.ty.IsValue := by
      rcases Bool.or_eq_true_iff.mp compared with pointer | number
      · exact built.typed.value_of_isPointer pointer
      · exact Ty.isValue_of_isArithmetic number
    exact .binary built (.literal _ _ isValue) (by decide) made
  · exact checked e fun frame locals holds => offered _ holds.offers

theorem breakLoop_settles (place : Place) : Settles env (Closed place) Never (breakLoop place) := by
  refine .start fun c o s _ _ _ => .spelled (by decide) <| .spaced nofun ?_
  split
  · exact .reject
  · rename_i height looped
    refine .scope <| .pure ⟨rfl, rfl, rfl, fun frame loop locals holds inside => ?_⟩
    obtain ⟨outer, rfl, bytes⟩ := inside.bytesSince looped holds
    rw [bytes]
    exact .breakLoop c.pos

theorem continueLoop_settles (place : Place) : Settles env (Closed place) Never (continueLoop place) := by
  refine .start fun c o s _ _ _ => .spelled (by decide) <| .spaced nofun ?_
  split
  · exact .reject
  · rename_i height looped
    refine .scope <| .pure ⟨rfl, rfl, rfl, fun frame loop locals holds inside => ?_⟩
    obtain ⟨outer, rfl, bytes⟩ := inside.bytesSince looped holds
    rw [bytes]
    exact .continueLoop c.pos

theorem assemblyLines_step (ih : Follows env c Kept ((Call.assemblyLines c).exhaustsAt env n) (assemblyLines c n)) :
    Follows env c Kept (GetsOn env n (.assemblyLines c)) (assemblyLines c (n + 1)) := by
  refine .start fun o s _ exhausts => ?_
  refine .whetherAtEnd .reject fun going => .skipped <| .choose nofun (.pure rfl) ?_
  refine .restOfLine going fun line => ?_
  exact .followed ih (fun pos later ran => exhausts ⟨pos, later, ran⟩) fun _ _ kept => .pure kept

theorem assemblyLines_follows (env : Env) (c : Checkpoint) (n : Nat) :
    Follows env c Kept ((Call.assemblyLines c).exhaustsAt env n) (assemblyLines c n) := by
  induction n with
  | zero => exact fun r => ⟨r, rfl, rfl⟩
  | succ n ih => exact (assemblyLines_step ih).self

theorem assemblyLines_le_remaining (ran : (Call.assemblyLines c).exhaustsAt env n pos) :
    n ≤ env.source.remaining pos := by
  refine Source.rounds_le_remaining (fun n => (Call.assemblyLines c).exhaustsAt env n) (fun n p ran => ?_) ran
  obtain ⟨r, rfl, ran⟩ := ran
  exact (assemblyLines_step (assemblyLines_follows env c n)).spent_of ran

theorem assembly_settles (place : Place) : Settles env (Closed place) Never assembly := by
  refine .start fun c o s _ _ exhausts => ?_
  refine .spelled (by decide) <| .spaced nofun <| .after (.isOn _) fun on => ?_
  split
  · refine .sourceSize <| .followed (assemblyLines_follows env c _) (fun pos _ ran => ?_)
      fun lines _ kept => .pure ⟨rfl, kept, rfl, fun _ _ _ _ _ => .assembly c.pos lines⟩
    have enough := assemblyLines_le_remaining ran
    have fewer := env.source.remaining_le_size pos
    omega
  · exact .reject

theorem returnStatement_settles (place : Place) : Settles env (Closed place) (Stalls env n) (returnStatement n place) := by
  refine .start fun c o s _ _ exhausts => ?_
  refine .spelled (by decide) <| .skipped ?_
  split
  · rename_i isVoid
    refine .expected nofun <| .scope <| .pure ⟨rfl, rfl, rfl, fun frame loop locals holds inside => ?_⟩
    rw [inside.1] at isVoid
    rw [holds.localBytes]
    exact .ret c.pos isVoid
  · rename_i returns
    refine .read (expressionsSettle env n).expression (stallHere exhausts) fun e offered => ?_
    refine .spaced nofun <| .whenBuilt fun result made => ?_
    refine .scope <| .pure ⟨rfl, rfl, rfl, fun frame loop locals holds inside => ?_⟩
    have built := offered _ holds.offers
    rw [inside.1] at returns made
    rw [holds.localBytes]
    refine .ret c.pos ⟨.implicit built frame.returns_named made, ?_, returns⟩
    exact (Build.implicit_typed built.typed frame.returns_named made).2

theorem checkNewName_follows (c : Checkpoint) (name : Bytes) :
    Follows env c (Yields fun _ s => s.findVariable? name = none) Never (checkNewName name c) := by
  refine .start fun o s _ _ => ?_
  refine .scope ?_
  split
  · exact .reject
  · rename_i free
    refine .scope ?_
    split
    · exact .reject
    · exact .pure ⟨rfl, by simpa using free⟩

theorem defineVariable_grow (s : Scope) (name : Bytes) (ty : Ty) (init : Option Expr) (offset : Int) :
    (s.defineVariable name ty).2 = s.grow [{ name, ty, init, offset }] := by
  simp only [Scope.defineVariable, Scope.define, Scope.push, Scope.grow, List.flatMap_cons, List.flatMap_nil,
    Declaration.slots, Ty.padded, List.cons_append, List.nil_append]

theorem defineArray_grow (s : Scope) (name : Bytes) (element : Ty) (size length offset storage : Int) :
    ((s.define [] element size).2.defineVariable name element.ref).2 =
      s.grow [{ name, ty := element.ref, offset, array := some ⟨length, size + size.tmod 2, storage⟩ }] := by
  simp only [Scope.defineVariable, Scope.define, Scope.push, Scope.grow, List.flatMap_cons, List.flatMap_nil,
    Declaration.slots, Ty.padded, List.cons_append, List.nil_append]
  rfl

variable {s : Scope} {frame : Frame} {locals : List Declaration} {name : Bytes}

theorem defineVariable_offset (holds : s.Represents frame locals)
    (new : Declares frame locals { name, ty, init, offset := -(localsBytes locals + ty.paddedSize) }) :
    (s.defineVariable name ty).1 = -(localsBytes locals + ty.paddedSize) := by
  have offset := holds.offset new.slots_local
  simp only [Declaration.slots, Stack.bytes_cons, Stack.bytes_nil, Entry.size, Int.add_zero, List.cons_append,
    List.nil_append] at offset
  simp only [Scope.defineVariable, Scope.define, Scope.push, Ty.padded, offset]

theorem defineArray_offset (holds : s.Represents frame locals) {length reserved : Int}
    (even : reserved = length * element.size + (length * element.size).tmod 2)
    (shape : entry = { name, ty := element.ref, offset := -(localsBytes locals + reserved + element.ref.paddedSize)
                       array := some ⟨length, reserved, -(localsBytes locals + reserved)⟩ })
    (new : Declares frame locals entry) :
    (s.define [] element (length * element.size)).1 = -(localsBytes locals + reserved) ∧
      ((s.define [] element (length * element.size)).2.defineVariable name element.ref).1 = entry.offset := by
  have offset := holds.offset new.slots_local
  have storage : Stack.AreLocal [.slot [] element reserved] := by
    intro slot member
    rw [List.mem_singleton.mp member]
    exact ⟨rfl, decide_eq_false (show [] ≠ savedBaseName by decide)⟩
  have storageOffset := holds.offset storage
  subst shape
  simp only [Declaration.slots, Stack.bytes_cons, Stack.bytes_nil, Entry.size, Int.add_zero, List.cons_append,
    List.nil_append] at offset storageOffset
  have sameElement : element.ref.deref = element := rfl
  rw [sameElement] at offset
  simp only [Scope.defineVariable, Scope.define, Scope.push, Ty.padded, ← even, show lower [] = [] from rfl, offset,
    storageOffset, true_and]
  omega

theorem arrayDeclaration_follows (c : Checkpoint) (notVoid : element ≠ .void) (nonempty : name ≠ [])
    (spelling : ∃ word, name = lower word) :
    Follows env c (fun read s t => s.findVariable? name = none → (s.types = Ty.builtins → element.IsNamed) →
      Declared read s t) (Stalls env n) (arrayDeclaration n c name element) := by
  refine .start fun o s _ exhausts => ?_
  refine .after (.isOn _) fun on => ?_
  split
  · exact .reject
  · refine .skipped ?_
    refine .read (expressionsSettle env n).expression (stallHere exhausts) fun length _ => ?_
    split
    · exact .reject
    · split
      · exact .reject
      · rename_i positive
        refine .spaced nofun <| .spaced nofun <|
          .scope ?_
        dsimp only
        refine .setScope <| .pure fun free named =>
          ⟨defineArray_grow .., ⟨_, _, rfl⟩, fun place frame loop locals holds _ => ?_⟩
        have fresh : frame.IsFresh locals name := ⟨nonempty, spelling, holds.findVariable? name ▸ free⟩
        have new := Declares.array fresh ⟨named holds.types, notVoid⟩ (Int.not_le.mp positive) rfl
        obtain ⟨storage, offset⟩ := defineArray_offset holds rfl rfl new
        rw [offset, storage]
        exact .declare c.pos new

theorem declaration_settles : Settles env Declared (Stalls env n) (declaration n) := by
  refine .start fun c o s _ _ exhausts => ?_
  refine .read dataType_yields .never fun ty named => ?_
  split
  · exact .reject
  · rename_i notVoid
    refine .name fun name nonempty ⟨text, isWord⟩ => ?_
    have spelling : ∃ word, name = lower word := ⟨_, isWord⟩
    refine .passed (checkNewName_follows c name) .never fun _ free => ?_
    refine .skipped <| .choose nofun ?_ ?_
    · refine (Runs.follow (arrayDeclaration_follows c notVoid nonempty spelling) (stallSince exhausts)).imp ?_
      exact fun read further t found => ⟨found.1, found.2 free named⟩
    · have finished (init : Option Expr) (initial : ∀ frame locals, s.Represents frame locals →
            ∀ e ∈ init, Built (frame.vocabulary locals) e ∧ e.ty = ty) :
          Runs o true s (expect ';' c >>= fun _ => scope >>= fun scope =>
            setScope (scope.defineVariable name ty).2 >>= fun _ =>
              pure (.declare c.pos { name, ty, init, offset := (scope.defineVariable name ty).1 }))
            fun read further t => further = true ∧ Declared read s t := by
        refine .expected nofun <| .scope <| .setScope <| .pure
          ⟨rfl, defineVariable_grow .., ⟨_, _, rfl⟩, fun place frame loop locals holds _ => ?_⟩
        have fresh : frame.IsFresh locals name := ⟨nonempty, spelling, holds.findVariable? name ▸ free⟩
        have new := Declares.scalar fresh ⟨named holds.types, notVoid⟩ (initial frame locals holds)
        rw [defineVariable_offset holds new]
        exact .declare c.pos new
      refine .choose nofun (.skipped ?_) (finished none fun _ _ _ => nofun)
      refine .read (expressionsSettle env n).expression (stallHere exhausts) fun e offered => ?_
      refine .whenBuilt fun converted made => .skipped <| finished (some converted) ?_
      intro frame locals holds other same
      cases same
      have built := offered _ holds.offers
      have isNamed := named holds.types
      exact ⟨.implicit built isNamed made, (Build.implicit_typed built.typed isNamed made).2⟩

theorem evaluation_settles (place : Place) :
    Settles env (Closed place) (Call.expression.exhaustsAt env n) (evaluation n) := by
  refine .startWith (expressionsSettle env n).expression fun c o s e _ offered => ?_
  refine .spaced nofun <| .pure ⟨rfl, rfl, rfl, ?_⟩
  exact fun _ _ _ holds _ => .evaluate c.pos (offered _ holds.offers)

theorem initializer_follows (place : Place) (c : Checkpoint) :
    Follows env c (fun init => Deeper place init.toList) (Stalls env n) (initializer n c) := by
  refine .start fun o s _ exhausts => ?_
  refine .choose nofun (.pure ⟨rfl, fun _ _ _ _ _ => .nil⟩) ?_
  refine .whetherCalled declaration_settles (stallSince exhausts)
    (fun read t declared => .pure ⟨declared.1, declared.2.2 place⟩) ?_
  refine .read (expressionsSettle env n).expression (stallHere exhausts) fun e offered => ?_
  refine .spaced nofun <| .pure ⟨rfl, ?_⟩
  exact fun _ _ _ holds _ => .evaluate e.pos (offered _ holds.offers)

theorem loopCondition_follows (c : Checkpoint) :
    Follows env c (Yields fun test s => ∀ e ∈ test, IsTest e s) (Stalls env n) (loopCondition n c) := by
  refine .start fun o s _ exhausts => ?_
  refine .choose nofun (.pure ⟨rfl, nofun⟩) ?_
  refine .passed (condition_follows c) (stallSince exhausts) fun e isTest => ?_
  exact .spaced nofun <| .pure ⟨rfl, by simpa using isTest⟩

theorem incrementer_follows (c : Checkpoint) :
    Follows env c (Yields fun post s => ∀ e ∈ post, Offered e s) (Stalls env n) (incrementer n c) := by
  refine .start fun o s _ exhausts => ?_
  refine .after .peek fun code => ?_
  split
  · exact .expected nofun <| .pure ⟨rfl, nofun⟩
  · refine .read (expressionsSettle env n).expression (stallHere exhausts) fun e offered => ?_
    exact .spaced nofun <| .pure ⟨rfl, by simpa using offered⟩

theorem exit_grow (s : Scope) (declared : List Declaration) :
    (s.enterBlock.grow declared).exitBlock = (localsBytes declared, s) := by
  have dropped := Stack.exit_append s.stack (ne_blockMark_of_slots declared)
  simp only [Scope.exitBlock, Scope.exit, Scope.grow, Scope.enterBlock, Scope.push, dropped, bytes_flatMap_slots]

theorem Runs.exitBlock {β : Type} {success : β → Bool → Scope → Prop} {next : Int → Rule β}
    (declared : List Declaration) (second : Runs o moved s (next (localsBytes declared)) success) :
    Runs o moved (s.enterBlock.grow declared) (exitBlock >>= next) success := by
  have dropped : Runs o moved (s.enterBlock.grow declared) Rule.exitBlock
      fun bytes further t => further = moved ∧ t = s ∧ bytes = localsBytes declared := by
    refine .scope ?_
    rw [exit_grow]
    exact .setScope <| .pure ⟨rfl, rfl, rfl⟩
  refine dropped.bind fun bytes further t reached => ?_
  obtain ⟨rfl, rfl, rfl⟩ := reached
  exact second

theorem Runs.chooseBrace {β : Type} {o : Attempt env c} {success : β → Bool → Scope → Prop} {yes no : Rule β}
    (found : Runs o true s yes success) (missing : Runs o (env.source.opensAt o.entry) s no success) :
    Runs o false s (test '\x7b' >>= fun next => if next = true then yes else no) success := by
  rintro r here rfl
  rw [choose_apply]
  split <;> rename_i brace
  · refine found _ (here.later (Reader.advance_later ?_)) (Reader.advance_scope env.source r)
    rw [brace]
    decide
  · refine missing r ?_ rfl
    cases opens : env.source.opensAt o.entry with
    | false => exact here
    | true =>
      rcases here with entry | later
      · have there : Reader.peek env.source { pos := o.entry } = '\x7b'.toNat := of_decide_eq_true opens
        rw [← entry] at there
        exact absurd there brace
      · exact later

theorem Settles.peekedBrace {α : Type} {grows : α → Scope → Scope → Prop} {yes no : Rule α}
    (block : Settles env grows (fun pos => env.source.opensAt pos = true → spent pos) yes)
    (other : Settles env grows (fun pos => env.source.opensAt pos = false → spent pos) no) :
    Settles env grows spent (peek >>= fun code => if code = '\x7b'.toNat then yes else no) := by
  intro r
  change ((if r.peek env.source = '\x7b'.toNat then yes else no) env r).Settled env grows spent r
  by_cases brace : r.peek env.source = '\x7b'.toNat
  · rw [if_pos brace]
    exact (block r).imp (fun _ _ => id) fun spent => spent (decide_eq_true brace)
  · rw [if_neg brace]
    exact (other r).imp (fun _ _ => id) fun spent => spent (decide_eq_false brace)

theorem Settles.scoped {α : Type} {grows : α → Scope → Scope → Prop} {next : Scope → Rule α}
    (second : ∀ s, Settles env (fun value here t => here = s → grows value here t) spent (next s)) :
    Settles env grows spent (scope >>= next) :=
  fun r => (second r.scope r).imp (fun _ _ grown => grown rfl) id

structure StatementsSettle (env : Env) (n : Nat) : Prop where
  statement : ∀ place, Settles env (Grown place) ((Call.statement place).exhaustsAt env n) (statement n place)
  block : ∀ place, Settles env (Closed place) ((Call.block place).exhaustsAt env n) (block n place)
  items : ∀ place c terminated warned, Follows env c (Deeper place)
    ((Call.items place c terminated warned).exhaustsAt env n) (items n place c terminated warned)
  branch : ∀ place, Settles env (Closed place) ((Call.branch place).exhaustsAt env n) (branch n place)
  loopBody : ∀ place, Settles env (Looped place) ((Call.loopBody place).exhaustsAt env n) (loopBody n place)
  whileLoop : ∀ place, Settles env (Closed place) ((Call.whileLoop place).exhaustsAt env n) (whileLoop n place)
  forLoop : ∀ place, Settles env (Closed place) ((Call.forLoop place).exhaustsAt env n) (forLoop n place)

theorem Closed.grown {read : Stmt} (closed : Closed place read s t) : Grown place read s t := by
  obtain ⟨rfl, nothing, admits⟩ := closed
  rw [Grown, nothing]
  exact ⟨rfl, admits⟩

section

variable (states : StatementsSettle env n) (place : Place)

include states

theorem statement_step : Settles env (Grown place) ((Call.statement place).Blames env n) (statement (n + 1) place) := by
  refine .peekedBrace ?_ ?_
  · refine (states.block place).imp (fun _ _ _ => Closed.grown) fun pos ran opens => .lower (.refl _) ?_ ran
    simp [Call.rank, opens]
  · -- the alternatives start at the position of the statement, so each of them has to rank below it
    have never {rule : Rule Stmt} (settles : Settles env (Closed place) Never rule) : Settles env (Grown place)
        (fun pos => env.source.opensAt pos = false → (Call.statement place).Blames env n pos) rule :=
      settles.imp (fun _ _ _ => Closed.grown) fun _ => False.elim
    have lower {callee : Call} {rule : Rule Stmt} (settles : Settles env (Closed place) (callee.exhaustsAt env n) rule)
        (low : callee.rank false < 4 := by simp [Call.rank]) : Settles env (Grown place)
        (fun pos => env.source.opensAt pos = false → (Call.statement place).Blames env n pos) rule := by
      refine settles.imp (fun _ _ _ => Closed.grown) fun pos ran opens => .lower (.refl _) ?_ ran
      rw [opens]
      exact low
    have stalls {grows : Stmt → Scope → Scope → Prop} {rule : Rule Stmt} (settles : Settles env grows (Stalls env n) rule)
        (grown : ∀ read s t, grows read s t → Grown place read s t) : Settles env (Grown place)
        (fun pos => env.source.opensAt pos = false → (Call.statement place).Blames env n pos) rule := by
      refine settles.imp grown fun pos stalled opens => ?_
      obtain ⟨there, ahead, ran⟩ := stalled
      refine .lower ahead ?_ ran
      simp [Call.rank, opens]
    exact .orElse (never (breakLoop_settles place)) <| .orElse (never (continueLoop_settles place)) <|
      .orElse (never (assembly_settles place)) <| .orElse (lower (states.branch place)) <|
      .orElse (lower (states.forLoop place)) <|
      .orElse (lower (states.whileLoop place)) <|
      .orElse (stalls (returnStatement_settles place) fun _ _ _ => Closed.grown) <|
      .orElse (stalls declaration_settles fun _ _ _ declared => ⟨declared.1, declared.2.2 place⟩)
        (lower (evaluation_settles place))

theorem block_step : Settles env (Closed place) ((Call.block place).Blames env n) (block (n + 1) place) := by
  refine .start fun c o s _ undoes exhausts => ?_
  have opened : s.enterBlock.Extends s := .push s .blockMark
  have inner : o.Undoes s.enterBlock := undoes.grown opened
  have wrapped {body : List Stmt} (admits : place.Admits body s.enterBlock) :
      place.Admits [.block c.pos body (localsBytes (Stmt.declared body))] s := fun frame loop locals holds inside =>
    .block c.pos (admits frame loop locals holds.enterBlock (inside.extend opened))
  refine .choose nofun (.pure ⟨rfl, rfl, rfl, wrapped fun _ _ _ _ _ => .nil⟩) <| .chooseBrace ?_ ?_
  · refine .changed (t := s.enterBlock) (fun r here => ⟨rfl, by simp only [here]⟩) <| .skipped ?_
    refine .followed (states.items place c false false) (laterCall exhausts) fun body t deeper => ?_
    obtain ⟨rfl, admits⟩ := deeper
    exact .exitBlock _ <| .pure ⟨rfl, rfl, rfl, wrapped admits⟩
  · refine .changed (t := s.enterBlock) (fun r here => ⟨rfl, by simp only [here]⟩) ?_
    refine .calledSilently (states.statement place) (fun _ there ran => ?_) fun read t grown => ?_
    · -- without a brace a block ranks above its statement; at a brace the attempt has moved
      cases opens : env.source.opensAt o.entry with
      | false =>
        rw [opens] at there
        exact exhausts (.lower there (by simp [Call.rank, opens]) ran)
      | true =>
        rw [opens] at there
        exact exhausts (.later there ran)
    · obtain ⟨rfl, admits⟩ := grown
      exact .exitBlock _ <| .pure ⟨rfl, rfl, rfl, wrapped admits⟩

theorem items_step (c : Checkpoint) (terminated warned : Bool) : Follows env c (Deeper place)
    ((Call.items place c terminated warned).Blames env n) (items (n + 1) place c terminated warned) := by
  refine .start fun o s undoes exhausts => ?_
  refine .choose nofun (.pure ⟨rfl, fun _ _ _ _ _ => .nil⟩) <| .after .peek fun code => ?_
  split
  · exact .reject
  · refine .after .position fun pos => ?_
    refine .calledSilently (states.statement place) (fun _ ahead ran => exhausts (.lower ahead ?_ ran))
      fun read t grown => ?_
    · simp only [Call.rank]
      split <;> omega
    · obtain ⟨rfl, admits⟩ := grown
      have extended := s.grow_extends read.declares
      have inner := undoes.grown extended
      have rest : Runs o true (s.grow read.declares) (laterItems n place c terminated read)
          fun body _ t => Deeper place body s t := by
        refine .skipped ?_
        refine .followed (states.items place c _ _) (laterCall exhausts) fun body t deeper => ?_
        obtain ⟨rfl, others⟩ := deeper
        refine .pure ⟨(s.grow_append (Stmt.declared body) read.declares).symm, fun frame loop locals holds inside => ?_⟩
        have accepts := admits frame loop locals holds inside
        exact .cons accepts (others frame loop _ (holds.grow accepts) (inside.extend extended))
      split
      · exact .after (.warn _ _ _) fun _ => rest
      · exact rest

theorem branch_step : Settles env (Closed place) ((Call.branch place).Blames env n) (branch (n + 1) place) := by
  refine .start fun c o s _ _ exhausts => ?_
  refine .spelled (by decide) <| .spaced nofun <| .skipped ?_
  refine .passed (condition_follows c) (stallLater exhausts) fun e isTest => ?_
  refine .spaced nofun <| .skipped ?_
  refine .called (states.block place) (laterCall exhausts) fun yes t closed => ?_
  obtain ⟨rfl, closed, admits⟩ := closed
  refine .marked fun mark there own => .skipped <| .whetherSpelled (by decide) there own ?_ ?_
  · refine .skipped ?_
    refine .called (states.block place) (laterCall exhausts) fun no t other => ?_
    refine .pure ⟨rfl, other.1, rfl, fun frame loop locals holds inside => ?_⟩
    exact .branchElse c.pos (isTest frame locals holds) closed other.2.1 (admits frame loop locals holds inside)
      (other.2.2 frame loop locals holds inside)
  · refine .pure ⟨rfl, rfl, rfl, fun frame loop locals holds inside => ?_⟩
    exact .branch c.pos (isTest frame locals holds) closed (admits frame loop locals holds inside)

theorem loopBody_step : Settles env (Looped place) ((Call.loopBody place).Blames env n) (loopBody (n + 1) place) := by
  refine .scoped fun s => ((states.block _).under ?_).imp (fun read here t closed same => ?_) fun _ => id
  · intro brace
    simp only [Call.rank]
    split <;> omega
  · subst same
    refine ⟨closed.1, closed.2.1, fun frame locals holds returns => ?_⟩
    exact closed.2.2 frame (some locals) locals holds ⟨returns, [], here.stack, rfl, rfl, holds.stack⟩

theorem whileLoop_step : Settles env (Closed place) ((Call.whileLoop place).Blames env n) (whileLoop (n + 1) place) := by
  refine .start fun c o s _ _ exhausts => ?_
  refine .spelled (by decide) <| .spaced nofun <| .skipped ?_
  refine .passed (condition_follows c) (stallLater exhausts) fun e isTest => ?_
  refine .spaced nofun <| .skipped ?_
  refine .called (states.loopBody place) (laterCall exhausts) fun body t looped => ?_
  refine .pure ⟨rfl, looped.1, rfl, fun frame loop locals holds inside => ?_⟩
  exact .whileLoop c.pos (isTest frame locals holds) looped.2.1 (looped.2.2 frame locals holds inside.1)

theorem forLoop_step : Settles env (Closed place) ((Call.forLoop place).Blames env n) (forLoop (n + 1) place) := by
  refine .start fun c o s own undoes exhausts => ?_
  refine .spelled (by decide) <| .spaced nofun <| .skipped <| .scope ?_
  refine .followed (initializer_follows place c) (stallLater exhausts) fun init t deeper => ?_
  obtain ⟨rfl, first⟩ := deeper
  have later := s.grow_extends (Stmt.declared init.toList)
  have inner := undoes.grown later
  refine .skipped <| .passed (loopCondition_follows c) (stallLater exhausts) fun test isTest => ?_
  refine .skipped <| .passed (incrementer_follows c) (stallLater exhausts) fun post offered => ?_
  refine .skipped ?_
  refine .called (states.loopBody place) (laterCall exhausts) fun body t looped => ?_
  obtain ⟨rfl, closed, accepts⟩ := looped
  refine .scope <| .changed (t := s) (fun r here => ⟨rfl, ?_⟩) <| .pure
    ⟨rfl, rfl, rfl, fun frame loop locals holds inside => ?_⟩
  · change r.scope.truncate c.sizes = s
    rw [here]
    exact later.rewound own
  · have accepted := first frame loop locals holds inside
    have grown := holds.grow accepted
    have cleanup : (s.grow (Stmt.declared init.toList)).bytesSince s.height =
        localsBytes (Stmt.declared init.toList ++ locals) - localsBytes locals := by
      rw [Scope.bytesSince_grow, localsBytes_append]
      omega
    rw [cleanup]
    exact .forLoop c.pos accepted rfl (fun e member => isTest e member frame _ grown)
      (fun e member => offered e member _ grown.offers) closed (accepts frame _ grown inside.1)

end

theorem StatementsSettle.succ (states : StatementsSettle env n) : StatementsSettle env (n + 1) where
  statement place := (statement_step states place).self
  block place := (block_step states place).self
  items place c terminated warned := (items_step states place c terminated warned).self
  branch place := (branch_step states place).self
  loopBody place := (loopBody_step states place).self
  whileLoop place := (whileLoop_step states place).self
  forLoop place := (forLoop_step states place).self

theorem statementsSettle (env : Env) (n : Nat) : StatementsSettle env n := by
  induction n with
  | zero => constructor <;> intros <;> exact fun r => ⟨r, rfl, rfl⟩
  | succ n ih => exact ih.succ

end Rule

end Cb
