import Mathlib.Data.List.Nodup
import Cb.Proofs.StatementRules

/-! What reading a whole program establishes: a table of distinct functions, and for each body a frame
that accepts it. A function that was read leaves the stack as it was; one that failed may have been registered in the
place of its declaration, and nothing else of it is left. -/

namespace Cb

def Function.Agrees (known later : Function) : Prop :=
  later.name = known.name ∧ later.paramTypes = known.paramTypes ∧ later.returns = known.returns

def Keeps (older newer : List Function) : Prop := ∀ known ∈ older, ∃ later ∈ newer, known.Agrees later

theorem Function.Agrees.refl (f : Function) : f.Agrees f := ⟨rfl, rfl, rfl⟩

theorem Function.Agrees.trans {first second third : Function} (early : first.Agrees second)
    (late : second.Agrees third) : first.Agrees third :=
  ⟨late.1.trans early.1, late.2.1.trans early.2.1, late.2.2.trans early.2.2⟩

theorem Keeps.trans {first second third : List Function} (early : Keeps first second) (late : Keeps second third) :
    Keeps first third := by
  intro known member
  obtain ⟨middle, there, agrees⟩ := early known member
  obtain ⟨later, kept, alike⟩ := late middle there
  exact ⟨later, kept, agrees.trans alike⟩

def Function.HasBody (f : Function) (table : List Function) (body : Stmt) : Prop :=
  body.declares = [] ∧ ∃ frame : Frame, frame.params = f.params ∧ frame.returns = f.returns ∧
    Keeps frame.functions table ∧ Accepts frame none [] [body]

variable {f : Function} {table result : List Function} {program : Program} {env : Env}

theorem Function.HasBody.keep {body : Stmt} (known : f.HasBody older body) (keeps : Keeps older newer) :
    f.HasBody newer body := by
  obtain ⟨closed, frame, params, returns, kept, accepts⟩ := known
  exact ⟨closed, frame, params, returns, kept.trans keeps, accepts⟩

structure IsTable (table : List Function) : Prop where
  distinct : (table.map (·.name)).Nodup
  sound : ∀ f ∈ table, f.toSignature.IsSound
  accepted : ∀ f ∈ table, ∀ body, f.body = some body → f.HasBody table body

theorem IsTable.unique (isTable : IsTable table) (here : f ∈ table) (there : g ∈ table) (same : f.name = g.name) :
    f = g :=
  List.inj_on_of_nodup_map isTable.distinct here there same

theorem IsTable.find?_eq (isTable : IsTable program.functions) (member : f ∈ program.functions) :
    program.find? f.name = some f := by
  cases found : program.find? f.name with
  | none =>
    have missing := List.find?_eq_none.mp found f member
    simp at missing
  | some g =>
    have same : g.name = f.name := by simpa using List.find?_some found
    rw [isTable.unique (List.mem_of_find?_eq_some found) member same]

def Function.Refuses (known f : Function) : Prop :=
  known.isImplemented = true ∨ known.paramTypes ≠ f.paramTypes ∨ known.returns ≠ f.returns

theorem Function.agrees_of_not_refuses {known : Function} (named : known.name = f.name) (admitted : ¬known.Refuses f) :
    known.Agrees f := by
  simp only [Refuses, not_or, Decidable.not_not] at admitted
  exact ⟨named.symm, admitted.2.1.symm, admitted.2.2.symm⟩

/-- A new name goes to the end of the table. Of a known name the first entry decides: it refuses the function,
or the function takes its place. -/
theorem Scope.register_outcome (f : Function) (table : List Function) :
    (∀ g ∈ table, g.name ≠ f.name) ∧ register f table = .ok (table ++ [f]) ∨
      ∃ before known after, table = before ++ known :: after ∧ (∀ g ∈ before, g.name ≠ f.name) ∧ known.name = f.name ∧
        (known.Refuses f ∧ (∃ error, register f table = .error error) ∨
          ¬known.Refuses f ∧ register f table = .ok (before ++ f :: after)) := by
  induction table with
  | nil => exact .inl ⟨nofun, rfl⟩
  | cons first rest ih =>
    by_cases other : first.name ≠ f.name
    · have step : register f (first :: rest) = (register f rest).map (first :: ·) := by
        rw [register, if_pos other]
      rcases ih with ⟨missing, _⟩ | ⟨before, known, after, rfl, missing, named, outcome⟩
      · have new : ∀ g ∈ first :: rest, g.name ≠ f.name := List.forall_mem_cons.mpr ⟨other, missing⟩
        exact .inl ⟨new, register_new new⟩
      · refine .inr ⟨first :: before, known, after, rfl, List.forall_mem_cons.mpr ⟨other, missing⟩, named, ?_⟩
        rcases outcome with ⟨refuses, error, refused⟩ | ⟨admits, made⟩
        · exact .inl ⟨refuses, error, by rw [step, refused]; rfl⟩
        · exact .inr ⟨admits, by rw [step, made]; rfl⟩
    · refine .inr ⟨[], first, rest, rfl, nofun, Decidable.not_not.mp other, ?_⟩
      rw [register, if_neg other]
      by_cases implemented : first.isImplemented = true
      · exact .inl ⟨Or.inl implemented, _, if_pos implemented⟩
      · rw [if_neg implemented]
        by_cases params : first.paramTypes ≠ f.paramTypes
        · exact .inl ⟨Or.inr (.inl params), _, if_pos params⟩
        · rw [if_neg params]
          by_cases returns : first.returns ≠ f.returns
          · exact .inl ⟨Or.inr (.inr returns), _, if_pos returns⟩
          · have admits : ¬first.Refuses f := by
              rintro (has | differ | differ) <;> contradiction
            exact .inr ⟨admits, if_neg returns⟩

theorem Scope.register_cases (made : register f table = .ok result) :
    (∃ before known after, table = before ++ known :: after ∧ result = before ++ f :: after ∧ known.Agrees f) ∨
      result = table ++ [f] ∧ ∀ g ∈ table, g.name ≠ f.name := by
  rcases register_outcome f table with ⟨missing, added⟩ |
    ⟨before, known, after, rfl, _, named, ⟨_, error, refused⟩ | ⟨admits, replaced⟩⟩
  · rw [added] at made
    cases made
    exact .inr ⟨rfl, missing⟩
  · rw [refused] at made
    cases made
  · rw [replaced] at made
    cases made
    exact .inl ⟨before, known, after, rfl, rfl, Function.agrees_of_not_refuses named admits⟩

theorem Scope.mem_of_register (made : register f table = .ok result) (member : g ∈ result) :
    g = f ∨ g ∈ table := by
  rcases register_cases made with ⟨before, old, after, rfl, rfl, _⟩ | ⟨rfl, _⟩
  all_goals
    simp only [List.mem_append, List.mem_cons, List.not_mem_nil, or_false] at member ⊢
    grind

theorem IsTable.register (isTable : IsTable table) (sound : f.toSignature.IsSound) (bodiless : f.body = none)
    (made : Scope.register f table = .ok result) : IsTable result ∧ Keeps table result ∧ f ∈ result := by
  have keeps : Keeps table result := by
    intro known member
    rcases Scope.register_cases made with ⟨before, old, after, rfl, rfl, agrees⟩ | ⟨rfl, _⟩
    · rcases List.mem_append.mp member with early | late
      · exact ⟨known, by simp [early], .refl known⟩
      · rcases List.mem_cons.mp late with rfl | later
        · exact ⟨f, by simp, agrees⟩
        · exact ⟨known, by simp [later], .refl known⟩
    · exact ⟨known, by simp [member], .refl known⟩
  have names : (result.map (·.name)).Nodup := by
    have distinct := isTable.distinct
    rcases Scope.register_cases made with ⟨before, old, after, rfl, rfl, agrees⟩ | ⟨rfl, missing⟩
    · simpa [agrees.1] using distinct
    · simpa [List.nodup_append] using ⟨distinct, missing⟩
  refine ⟨⟨names, ?_, ?_⟩, keeps, ?_⟩
  · intro g member
    rcases Scope.mem_of_register made member with rfl | old
    · exact sound
    · exact isTable.sound g old
  · intro g member body implemented
    rcases Scope.mem_of_register made member with rfl | old
    · rw [bodiless] at implemented
      cases implemented
    · exact (isTable.accepted g old body implemented).keep keeps
  · rcases Scope.register_cases made with ⟨before, old, after, rfl, rfl, _⟩ | ⟨rfl, _⟩ <;> simp

theorem IsTable.implement (isTable : IsTable table) (registered : f ∈ table) (known : f.HasBody table body) :
    let given := table.map fun g =>
      if g.name = f.name then { g with body := some body, calls := (Node.stmt body).callNames } else g
    IsTable given ∧ Keeps table given := by
  intro given
  have keeps : Keeps table given := by
    intro g member
    refine ⟨_, List.mem_map_of_mem member, ?_⟩
    split
    · exact ⟨rfl, rfl, rfl⟩
    · exact .refl g
  refine ⟨⟨?_, ?_, ?_⟩, keeps⟩
  · have names : given.map (·.name) = table.map (·.name) := by
      rw [List.map_map]
      refine List.map_congr_left fun g _ => ?_
      simp only [Function.comp]
      split <;> rfl
    rw [names]
    exact isTable.distinct
  · intro later member
    obtain ⟨g, there, rfl⟩ := List.mem_map.mp member
    have sound := isTable.sound g there
    split
    · exact sound
    · exact sound
  · intro later member found implemented
    obtain ⟨g, there, rfl⟩ := List.mem_map.mp member
    split at implemented
    · rename_i same
      cases implemented
      have isF : g = f := isTable.unique there registered same
      subst isF
      rw [if_pos rfl]
      exact known.keep keeps
    · rename_i other
      rw [if_neg other]
      exact (isTable.accepted g there found implemented).keep keeps

namespace Scope

structure Resembles (t s : Scope) : Prop where
  types : t.types = s.types
  stack : t.stack = s.stack
  names : t.functions.map (·.name) = s.functions.map (·.name)

variable {s t : Scope}

theorem Resembles.sizes_eq (alike : t.Resembles s) : t.sizes = s.sizes := by
  have count := congrArg List.length alike.names
  simp only [List.length_map] at count
  simp only [sizes, alike.types, alike.stack, count]

structure AddsFunction (t s : Scope) : Prop where
  types : t.types = s.types
  stack : t.stack = s.stack
  names : ∃ added : List Bytes, added.length ≤ 1 ∧ t.functions.map (·.name) = s.functions.map (·.name) ++ added

structure Outgrows (t s : Scope) : Prop where
  types : t.types = s.types
  names : ∃ added, t.functions.map (·.name) = s.functions.map (·.name) ++ added
  stack : ∃ above, t.stack = above ++ s.stack

theorem Outgrows.further {u : Scope} (outgrows : t.Outgrows s) (grown : u.Extends t) : u.Outgrows s := by
  obtain ⟨types, functions, newer, pushed⟩ := grown
  obtain ⟨above, stack⟩ := outgrows.stack
  refine ⟨types.trans outgrows.types, functions ▸ outgrows.names, newer ++ above, ?_⟩
  rw [pushed, stack, List.append_assoc]

theorem Outgrows.truncate (outgrows : t.Outgrows s) : (t.truncate s.sizes).Resembles s := by
  obtain ⟨added, names⟩ := outgrows.names
  obtain ⟨above, stack⟩ := outgrows.stack
  constructor
  · simp [Scope.truncate, sizes, outgrows.types]
  · simp [Scope.truncate, sizes, stack]
  · simp only [Scope.truncate, sizes, List.map_take, names]
    exact List.take_left' (List.length_map _)

theorem register_names (made : register f table = .ok result) :
    ∃ added : List Bytes, added.length ≤ 1 ∧ result.map (·.name) = table.map (·.name) ++ added := by
  rcases register_cases made with ⟨before, known, after, rfl, rfl, agrees⟩ | ⟨rfl, _⟩
  · exact ⟨[], Nat.zero_le _, by simp [agrees.1]⟩
  · exact ⟨[f.name], Nat.le_refl _, by simp⟩

theorem implement_names (s : Scope) (name : Bytes) (body : Stmt) :
    (s.implement name body).functions.map (·.name) = s.functions.map (·.name) := by
  simp only [implement, List.map_map]
  refine List.map_congr_left fun f _ => ?_
  simp only [Function.comp]
  split <;> rfl

theorem exitFunction_eq (above : Stack) (stack : s.stack = above ++ .functionMark :: rest)
    (free : ∀ entry ∈ above, entry ≠ .functionMark) : s.exitFunction.2 = { s with stack := rest } := by
  simp only [exitFunction, exit, stack, Stack.exit_append rest free]

end Scope

namespace Rule

variable {env : Env} {n : Nat} {s : Scope} {r after : Reader}

structure Distinguishes (seen : List Bytes) (params : List Param) : Prop where
  spelled : ∀ param ∈ params, param.name ≠ [] ∧ ∃ word, param.name = lower word
  distinct : (params.map Param.name).Nodup
  unseen : ∀ param ∈ params, param.name ∉ seen

def ParamsRead (seen : List Bytes) (read : List Param × Bool) : Prop :=
  (∀ param ∈ read.1, param.ty.IsValue ∧ ∃ text, param.name = lower (Reader.leadingWord text)) ∧
    (read.2 = true → Distinguishes seen read.1)

theorem ParamsRead.cons {found : Option Bytes} (isValue : ty.IsValue)
    (fits : ∀ name ∈ found, name ≠ [] ∧ (∃ text, name = lower (Reader.leadingWord text)) ∧ name ∉ seen)
    (read : ParamsRead (found.toList ++ seen) (rest, named)) :
    ParamsRead seen (⟨found.getD [], ty⟩ :: rest, found.isSome && named) := by
  refine ⟨List.forall_mem_cons.mpr ⟨⟨isValue, ?_⟩, read.1⟩, fun allNamed => ?_⟩
  · cases found with
    | none => exact ⟨[], rfl⟩
    | some name => exact (fits name rfl).2.1
  · simp only [Bool.and_eq_true] at allNamed
    cases found with
    | none => cases allNamed.1
    | some name =>
      have others := read.2 allNamed.2
      obtain ⟨nonempty, ⟨text, spelled⟩, new⟩ := fits name rfl
      have unseen (param : Param) (member : param ∈ rest) : param.name ≠ name ∧ param.name ∉ seen := by
        simpa using others.unseen param member
      refine ⟨List.forall_mem_cons.mpr ⟨⟨nonempty, _, spelled⟩, others.spelled⟩, ?_,
        List.forall_mem_cons.mpr ⟨new, fun param later => (unseen param later).2⟩⟩
      refine List.nodup_cons.mpr ⟨fun member => ?_, others.distinct⟩
      obtain ⟨param, later, same⟩ := List.mem_map.mp member
      exact (unseen param later).1 same

def AreParams (seen : List Bytes) (read : List Param × Bool) (s : Scope) : Prop :=
  s.types = Ty.builtins → ParamsRead seen read

theorem params_step
    (ih : ∀ seen, Follows env c (Yields (AreParams seen)) ((Call.params c seen).exhaustsAt env n) (params c n seen)) :
    Follows env c (Yields (AreParams seen))
      (fun pos => ∃ there seen, env.source.Later pos there ∧ (Call.params c seen).exhaustsAt env n there)
      (params c (n + 1) seen) := by
  refine .start fun o s _ exhausts => ?_
  refine .skipped <| .choose nofun (.pure ⟨rfl, fun _ => ⟨nofun, fun _ => ⟨nofun, .nil, nofun⟩⟩⟩) ?_
  refine .read dataType_yields .never fun ty named => ?_
  split
  · exact .reject
  · rename_i notVoid
    have continued (found : Option Bytes)
        (fits : ∀ name ∈ found, name ≠ [] ∧ (∃ text, name = lower (Reader.leadingWord text)) ∧ name ∉ seen) :
        Runs o true s (laterParams c n seen ty found) fun read _ t => Yields (AreParams seen) read s t := by
      have others : Runs o true s (params c n (found.toList ++ seen) >>= fun read => pure (consParam ty found read))
          fun read _ t => Yields (AreParams seen) read s t :=
        .passed (ih _) (fun pos later ran => exhausts ⟨pos, _, later, ran⟩) fun read areParams =>
          .pure ⟨rfl, fun types => .cons ⟨named types, notVoid⟩ fits (areParams types)⟩
      refine .after (.test ',') fun comma => ?_
      split
      · refine .after .peek fun code => ?_
        split
        · exact .rejected
        · exact others
      · exact others
    refine .after .peek fun code => ?_
    split
    · exact continued none nofun
    · refine .name fun name nonempty spelled => ?_
      split
      · exact .rejected
      · rename_i new
        refine .skipped <| continued (some name) fun other same => ?_
        cases same
        exact ⟨nonempty, spelled, by simpa using new⟩

theorem params_follows (env : Env) (c : Checkpoint) (n : Nat) (seen : List Bytes) :
    Follows env c (Yields (AreParams seen)) ((Call.params c seen).exhaustsAt env n) (params c n seen) := by
  induction n generalizing seen with
  | zero => exact fun r => ⟨r, rfl, rfl⟩
  | succ n ih => exact (params_step ih).self

structure Settled (s : Scope) : Prop where
  types : s.types = Ty.builtins
  stack : s.stack = []
  table : IsTable s.functions

def heading : Rule (Ty × Bytes) := do
  let c ← checkpoint
  let returns ← orReject dataType c (.invalid "type")
  let name ← name c "name"
  return (returns, name)

theorem name_ok (ran : name c what env r = .ok found after) :
    after.scope = r.scope ∧ ∃ text, found = lower (Reader.leadingWord text) := by
  obtain ⟨word, _, isWord, ran⟩ := bind_ok ran
  cases isWord
  dsimp only at ran
  split at ran
  · cases ran
  · cases ran
    exact ⟨rfl, _, rfl⟩

theorem heading_spelled {name : Bytes} (ran : heading env r = .ok (returns, name) middle) :
    ∃ text, name = lower (Reader.leadingWord text) := by
  obtain ⟨_, _, _, ran⟩ := bind_ok ran
  obtain ⟨_, _, _, ran⟩ := bind_ok ran
  obtain ⟨_, _, named, ran⟩ := bind_ok ran
  cases ran
  exact (name_ok named).2

inductive Adds (env : Env) (n : Nat) (s : Scope) : Bytes → Scope → Prop
  | declared {f : Function} {table : List Function} (sound : f.toSignature.IsSound) (bodiless : f.body = none)
      (made : Scope.register f s.functions = .ok table) : Adds env n s f.name { s with functions := table }
  | defined {f : Function} {frame : Frame} {body : Stmt} {inside outside : Reader} (sound : f.toSignature.IsSound)
      (bodiless : f.body = none) (made : Scope.register f s.functions = .ok frame.functions)
      (params : frame.params = f.params) (returns : frame.returns = f.returns) (opened : inside.scope = frame.scope)
      (read : block n { returns := f.returns } env inside = .ok body outside) :
      Adds env n s f.name ({ s with functions := frame.functions }.implement f.name body)

def Heads (s : Scope) (name : Bytes) (t : Scope) : Prop :=
  ∀ f ∈ t.functions, f.name = name ∧ (∀ param ∈ f.params, ∃ text, param.name = lower (Reader.leadingWord text)) ∨
    ∃ known ∈ s.functions, f.name = known.name ∧ f.params = known.params

theorem heads_of_register (made : Scope.register f s.functions = .ok table)
    (spelled : ∀ param ∈ f.params, ∃ text, param.name = lower (Reader.leadingWord text))
    (same : ∀ g ∈ t.functions, ∃ known ∈ table, g.name = known.name ∧ g.params = known.params) : Heads s f.name t := by
  intro g member
  obtain ⟨known, there, sameName, sameParams⟩ := same g member
  rcases Scope.mem_of_register made there with rfl | old
  · exact .inl ⟨sameName, sameParams ▸ spelled⟩
  · exact .inr ⟨known, old, sameName, sameParams⟩

def Registers (env : Env) (n : Nat) (returns : Ty) (name : Bytes) (s t : Scope) : Prop :=
  t.AddsFunction s ∧ (Settled s → returns.IsNamed → Adds env n s name t ∧ Heads s name t)

theorem Runs.register {β : Type} {o : Attempt env c} {success : β → Bool → Scope → Prop} {next : Unit → Rule β}
    (second : ∀ table, Scope.register f s.functions = .ok table →
      Runs o moved { s with functions := table } (next ()) success) [o.Undoes s] :
    Runs o moved s (register f c >>= next) success := by
  have first : Runs o moved s (Rule.register f c) fun _ further t => further = moved ∧ ∃ table,
      Scope.register f s.functions = .ok table ∧ t = { s with functions := table } := by
    refine .scope ?_
    rw [Scope.addFunction]
    cases made : Scope.register f s.functions with
    | error error => exact .reject
    | ok table => exact .update (fun _ _ => ⟨rfl, rfl⟩) ⟨rfl, table, rfl, rfl⟩
  refine first.bind fun _ further t reached => ?_
  obtain ⟨rfl, table, made, rfl⟩ := reached
  exact second table made

def FunctionRead (env : Env) (n : Nat) (r : Reader) : Reply Unit → Prop
  | .ok _ after => env.source.Later r.pos after.pos ∧ after.scope.AddsFunction r.scope
  | .fail after => after.pos = r.pos ∧ after.scope.Resembles r.scope
  | .exhausted => ∃ callee there, env.source.Later r.pos there ∧ Call.exhaustsAt env n callee there

theorem enterFrame_eq (s : Scope) (params : List Param) : ∃ above : Stack, (∀ entry ∈ above, entry ≠ .functionMark) ∧
    (defineParams s params).enterFrame = { s with stack := above ++ s.stack } := by
  refine ⟨.slot savedBaseName .int 2 :: .slot returnAddressName .int 2 :: params.reverse.map Param.slot, ?_, ?_⟩
  · intro entry member
    simp only [List.mem_cons, List.mem_map] at member
    rcases member with rfl | rfl | ⟨param, _, rfl⟩ <;> simp [Param.slot]
  · rw [defineParams_eq]
    rfl

section

variable {c : Checkpoint} {o : Attempt env c} (undoes : ∀ {t : Scope}, t.Outgrows s → o.Undoes t)
  (opened : s.enterFunction.Outgrows s) {returns : Ty} {name : Bytes} {params : List Param} {named : Bool}
  (read : AreParams [] (params, named) s.enterFunction)

include undoes opened read

theorem functionDeclared_runs :
    Runs o true s.enterFunction
      (register { name, returns, params, pos := c.pos } c >>= fun _ => exitFunction)
      fun _ further t => further = true ∧ Registers env n returns name s t := by
  have opens := undoes opened
  refine .register fun table made => ?_
  refine .update (t := { s with functions := table }) (fun r here => ⟨rfl, ?_⟩)
    ⟨rfl, ⟨rfl, rfl, Scope.register_names made⟩, fun settled isNamed => ?_⟩
  · rw [here]
    exact Scope.exitFunction_eq [] rfl nofun
  · have given := (read settled.types).1
    refine ⟨.declared (s := s) ⟨?_, isNamed⟩ rfl made, ?_⟩
    · simpa [Signature.paramTypes] using fun param member => (given param member).1
    · exact heads_of_register made (fun param member => (given param member).2) fun g member => ⟨g, member, rfl, rfl⟩

theorem functionDefined_runs (allNamed : named = true)
    (exhausts : ∀ callee there, o.At true there → Call.exhaustsAt env n callee there → o.spent) :
    Runs o true s.enterFunction (implement n c { name, returns, params, pos := c.pos })
      fun _ further t => further = true ∧ Registers env n returns name s t := by
  have opens := undoes opened
  refine .register fun table made => ?_
  obtain ⟨added, atMost, names⟩ := Scope.register_names made
  obtain ⟨above, free, framed⟩ := enterFrame_eq { s.enterFunction with functions := table } params
  let inside : Scope := { s with functions := table, stack := above ++ s.enterFunction.stack }
  have deeper : inside.Outgrows s := by
    refine ⟨rfl, ⟨added, names⟩, above ++ [.functionMark], ?_⟩
    rw [List.append_assoc]
    rfl
  have inner := undoes deeper
  refine .changed (t := inside) (fun r here => ⟨rfl, ?_⟩) ?_
  · simp only [here]
    exact framed
  refine .called ((statementsSettle env n).block { returns }).ran (exhausts _) fun body t closed => ?_
  obtain ⟨⟨rfl, _⟩, before, behind, there, ran⟩ := closed
  refine .changed (t := { s with functions := table }) (fun r here => ⟨rfl, ?_⟩) ?_
  · rw [here]
    exact Scope.exitFunction_eq above rfl free
  refine .update (t := ({ s with functions := table } : Scope).implement name body) (fun r here => ⟨rfl, ?_⟩)
    ⟨rfl, ⟨rfl, rfl, added, atMost, (Scope.implement_names _ name body).trans names⟩, fun settled isNamed => ?_⟩
  · simp only [here]
  have given := read settled.types
  have areValues (param : Param) (member : param ∈ params) : param.ty.IsValue := (given.1 param member).1
  have distinct := given.2 allNamed
  have sound : ({ name, returns, params, pos := c.pos } : Function).toSignature.IsSound :=
    ⟨by simpa [Signature.paramTypes] using areValues, isNamed⟩
  let frame : Frame :=
    { functions := table, params, returns, functions_sound := (settled.table.register sound rfl made).1.sound
      params_value := areValues, params_spelled := distinct.spelled, params_distinct := distinct.distinct
      returns_named := isNamed }
  have isFrame : inside = frame.scope := by
    refine framed.symm.trans ?_
    simp [Frame.scope, frame, Scope.enterFunction, Scope.push, settled.types, settled.stack]
  have made : Scope.register _ s.functions = .ok frame.functions := made
  refine ⟨.defined sound rfl made rfl rfl (there.trans isFrame) ran, ?_⟩
  refine heads_of_register made (fun param member => (given.1 param member).2) fun g member => ?_
  obtain ⟨known, isKnown, rfl⟩ := List.mem_map.mp member
  refine ⟨known, isKnown, ?_⟩
  split <;> exact ⟨rfl, rfl⟩

end

theorem functionRest_runs {o : Attempt env c} (undoes : ∀ {t : Scope}, t.Outgrows s → o.Undoes t)
    (exhausts : ∀ callee there, o.At true there → Call.exhaustsAt env n callee there → o.spent) (returns : Ty)
    (name : Bytes) :
    Runs o moved s (do
      if name = "test" then reject c (.invalid "name") else
      update fun r => { r with scope := r.scope.enterFunction }
      skip
      expect '(' c
      let (params, named) ← params c n []
      let f : Function := { name, returns, params, pos := c.pos }
      skip
      if ← test ';' then
        register f c
        exitFunction
      else if !named then reject c .unnamedParameter
      else implement n c f)
      fun _ further t => further = true ∧ Registers env n returns name s t := by
  have entry : s.Outgrows s := ⟨rfl, ⟨[], (List.append_nil _).symm⟩, [], rfl⟩
  have opened : s.enterFunction.Outgrows s := entry.further (.push _ _)
  have starts := undoes entry
  have opens := undoes opened
  split
  · exact .reject
  · refine .changed (t := s.enterFunction) (fun reader here => ⟨rfl, by simp only [here]⟩) <| .spaced nofun ?_
    refine .passed (params_follows env c n []) (exhausts _) fun read areParams => ?_
    refine .skipped <| .choose nofun (functionDeclared_runs undoes opened areParams) ?_
    split
    · exact .reject
    · rename_i allNamed
      exact functionDefined_runs undoes opened areParams (by simpa using allNamed) exhausts

theorem function_reads (env : Env) (n : Nat) (r : Reader) : FunctionRead env n r (function n env r) := by
  let o : Attempt env r.checkpoint :=
    { entry := r.pos, lost := (·.Resembles r.scope)
      spent := ∃ callee there, env.source.Later r.pos there ∧ Call.exhaustsAt env n callee there }
  have undoes {t : Scope} (outgrows : t.Outgrows r.scope) : o.Undoes t :=
    ⟨fun u grown => (outgrows.further grown).truncate⟩
  have starts : o.Undoes r.scope := undoes ⟨rfl, ⟨[], (List.append_nil _).symm⟩, [], rfl⟩
  have fits : (function n env r).Fits o fun _ further t => further = true ∧ t.AddsFunction r.scope := by
    refine Runs.own rfl ?_
    refine .read dataType_yields .never fun returns _ => ?_
    refine .name fun name _ _ => ?_
    refine (functionRest_runs undoes (fun callee there later ran => ⟨callee, there, later, ran⟩) returns name).imp ?_
    exact fun _ _ _ reached => ⟨reached.1, reached.2.1⟩
  generalize function n env r = reply at fits ⊢
  cases reply with
  | ok value after =>
    obtain ⟨further, there, rfl, added⟩ := fits
    exact ⟨there, added⟩
  | fail after => exact ⟨fits.1 (.refl _), fits.2⟩
  | exhausted => exact fits

theorem functions_step (ran : functions depth (n + 1) env r = .exhausted) :
    function depth env r = .exhausted ∨
      ∃ next : Reader, env.source.Later r.pos next.pos ∧ functions depth n env next = .exhausted := by
  change (if r.peek env.source = endOfFile then Rule.pure () else (Rule.bind (function depth) fun _ =>
    Rule.bind skip fun _ => functions depth n)) env r = .exhausted at ran
  by_cases ended : r.peek env.source = endOfFile
  · rw [if_pos ended] at ran
    cases ran
  · rw [if_neg ended] at ran
    have outcome := function_reads env depth r
    simp only [Rule.bind] at ran
    cases read : function depth env r with
    | ok value after =>
      rw [read] at ran outcome
      exact .inr ⟨_, outcome.1.then_ahead (Reader.skip_ahead after), ran⟩
    | fail after =>
      rw [read] at ran
      cases ran
    | exhausted => exact .inl rfl

theorem function_registers (settled : Settled r.scope) (ran : function n env r = .ok () after) :
    ∃ returns name middle, heading env r = .ok (returns, name) middle ∧ Adds env n r.scope name after.scope ∧
      Heads r.scope name after.scope := by
  obtain ⟨c, _, isHere, ran⟩ := bind_ok ran
  cases isHere
  obtain ⟨returns, first, readType, ran⟩ := bind_ok ran
  obtain ⟨name, middle, readName, ran⟩ := bind_ok ran
  obtain ⟨sameType, isNamed⟩ := dataType_yields.of_ok (orReject_ok readType)
  have sameName : middle.scope = r.scope := (name_ok readName).1.trans sameType
  let o : Attempt env r.checkpoint := { entry := middle.pos, lost := fun _ => True, spent := True }
  have runs : Runs o false r.scope _ _ :=
    functionRest_runs (n := n) (fun _ => ⟨fun _ _ => trivial⟩) (fun _ _ _ _ => trivial) returns name
  obtain ⟨_, _, _, registers⟩ := runs.of_ok (Source.Ahead.refl _) sameName ran
  refine ⟨returns, name, middle, ?_, registers settled (isNamed settled.types)⟩
  change Rule.bind _ _ env r = _
  simp only [Rule.bind, readType]
  change Rule.bind _ _ env first = _
  simp only [Rule.bind, readName]
  rfl

theorem function_adds (settled : Settled r.scope) (ran : function n env r = .ok () after) :
    ∃ returns name middle, heading env r = .ok (returns, name) middle ∧ Adds env n r.scope name after.scope := by
  obtain ⟨returns, name, middle, heading, adds, _⟩ := function_registers settled ran
  exact ⟨returns, name, middle, heading, adds⟩

theorem block_accepts (same : returns = frame.returns) (opened : r.scope = frame.scope)
    (read : block n { returns } env r = .ok body after) :
    body.declares = [] ∧ Accepts frame none [] [body] := by
  obtain ⟨_, closed, admits⟩ := ((statementsSettle env n).block _).of_ok read
  rw [opened] at admits
  exact ⟨closed, admits frame none [] frame.scope_represents ⟨same, trivial⟩⟩

theorem Adds.settled {name : Bytes} (adds : Adds env n s name t) (settled : Settled s) : Settled t := by
  cases adds with
  | declared sound bodiless made =>
    exact ⟨settled.types, settled.stack, (settled.table.register sound bodiless made).1⟩
  | @defined f frame body inside outside sound bodiless made params returns opened read =>
    obtain ⟨isTable, _, registered⟩ := settled.table.register sound bodiless made
    obtain ⟨closed, accepts⟩ := block_accepts returns.symm opened read
    have keeps : Keeps frame.functions frame.functions := fun known member => ⟨known, member, .refl known⟩
    have implemented := isTable.implement registered ⟨closed, frame, params, returns, keeps, accepts⟩
    exact ⟨settled.types, settled.stack, implemented.1⟩

theorem functions_keep {p : List Function → Prop}
    (step : ∀ {r after}, Settled r.scope → p r.scope.functions → function depth env r = .ok () after →
      p after.scope.functions)
    (settled : Settled r.scope) (first : p r.scope.functions) (ran : functions depth n env r = .ok () last) :
    Settled last.scope ∧ p last.scope.functions := by
  induction n generalizing r with
  | zero => cases ran
  | succ n ih =>
    obtain ⟨code, _, peeked, ran⟩ := bind_ok ran
    cases peeked
    split at ran
    · cases ran
      exact ⟨settled, first⟩
    · obtain ⟨_, behind, read, ran⟩ := bind_ok ran
      obtain ⟨_, _, skipped, ran⟩ := bind_ok ran
      cases skipped
      obtain ⟨_, _, _, _, adds⟩ := function_adds settled read
      refine ih ?_ ?_ ran <;> rw [Reader.skip, Reader.skipUpTo_scope]
      · exact adds.settled settled
      · exact step settled first read

end Rule

def Env.reading (env : Env) : Reply Unit :=
  (Rule.skip >>= fun _ => Rule.functions env.source.depth (env.source.size + 1)) env {}

theorem reading_of_parse (parsed : (parse env).program = .ok program) :
    ∃ last : Reader, env.reading = .ok () last ∧ program.functions = last.scope.functions := by
  simp only [parse] at parsed
  split at parsed
  · rename_i last ran
    cases parsed
    exact ⟨last, ran, rfl⟩
  · cases parsed
  · cases parsed

theorem Rule.Settled.empty : Settled {} := ⟨rfl, rfl, .nil, nofun, nofun⟩

/-- What holds of no functions and is kept by every function that is read holds of all of them. -/
theorem Env.reading_keeps {p : List Function → Prop} (start : p [])
    (step : ∀ {r after}, Rule.Settled r.scope → p r.scope.functions →
      Rule.function env.source.depth env r = .ok () after → p after.scope.functions)
    (read : env.reading = .ok () last) :
    Rule.Settled last.scope ∧ p last.scope.functions := by
  obtain ⟨_, _, skipped, ran⟩ := Rule.bind_ok read
  cases skipped
  refine Rule.functions_keep step ?_ ?_ ran <;> rw [Reader.skip, Reader.skipUpTo_scope]
  · exact .empty
  · exact start

theorem parse_isTable (parsed : (parse env).program = .ok program) : IsTable program.functions := by
  obtain ⟨last, read, functions⟩ := reading_of_parse parsed
  rw [functions]
  exact (Env.reading_keeps (p := fun _ => True) trivial (fun _ _ _ => trivial) read).1.table

theorem exists_of_any {result : Except ε α} (accepted : result.toOption.any check = true) :
    ∃ value, result = .ok value ∧ check value = true := by
  cases result with
  | error => cases accepted
  | ok value => exact ⟨value, rfl, accepted⟩

theorem exists_of_isSome {result : Except ε α} (isOk : result.toOption.isSome = true) : ∃ value, result = .ok value := by
  cases result with
  | error => cases isOk
  | ok value => exact ⟨value, rfl⟩

end Cb
