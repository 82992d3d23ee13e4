import Cb.Grammar.Expression
import Cb.Proofs.TreeMaps

/-! Trees with their positions changed. Positions are copied and never looked at, so every checked construction
goes on as before when the positions of its parts change. -/

namespace Cb

variable {view : Position → Position}

namespace Expr

mutual

def relocated (view : Position → Position) : Expr → Expr
  | .literal info => .literal (info.relocated view)
  | .var info name offset => .var (info.relocated view) name offset
  | .deref info address displacement => .deref (info.relocated view) (address.relocated view) displacement
  | .step info target down => .step (info.relocated view) (target.relocated view) down
  | .addressOf info target => .addressOf (info.relocated view) (target.relocated view)
  | .cast info operand => .cast (info.relocated view) (operand.relocated view)
  | .call info name given => .call (info.relocated view) name (relocatedAll view given)
  | .binary info op left right => .binary (info.relocated view) op (left.relocated view) (right.relocated view)
  | .hollow info => .hollow (info.relocated view)
termination_by structural e => e

def relocatedAll (view : Position → Position) : List Expr → List Expr
  | [] => []
  | e :: rest => e.relocated view :: relocatedAll view rest
termination_by structural es => es

end

theorem relocatedAll_eq (given : List Expr) : relocatedAll view given = given.map (relocated view) := by
  induction given with
  | nil => rfl
  | cons e rest ih => rw [relocatedAll, ih, List.map_cons]

theorem info_relocated (e : Expr) : (e.relocated view).info = e.info.relocated view := by
  cases e <;> rfl

theorem relocated_keeps : Keeps view (relocated view) where
  info := info_relocated
  literal_eq _ := rfl
  deref_eq _ _ _ := rfl
  step_eq _ _ _ := rfl
  cast_eq _ _ := rfl
  call_eq _ name given := congrArg (Expr.call _ name) (relocatedAll_eq given)
  binary_eq _ _ _ _ _ := rfl
  splitAddress_eq address := by
    have fixed (e : Expr) : (e.relocated view).isConstant = e.isConstant ∧ (e.relocated view).value = e.value := by
      cases e <;> exact ⟨rfl, rfl⟩
    cases address with
    | binary info op left right =>
      simp only [relocated, Build.splitAddress, fixed]
      split
      · split <;> rfl
      · rfl
    | literal | var | deref | step | addressOf | cast | call | hollow => rfl

mutual

theorem text_relocated : ∀ e : Expr, (e.relocated view).text = e.text
  | .literal _ | .var _ _ _ | .hollow _ => rfl
  | .deref _ address _ => by simp only [relocated, text, text_relocated address]
  | .step _ target _ => by simp only [relocated, text, text_relocated target]
  | .addressOf _ target => by simp only [relocated, text, text_relocated target]
  | .cast _ operand => by simp only [relocated, text, text_relocated operand, Info.relocated]
  | .call _ _ given => by simp only [relocated, text, texts_relocated given]
  | .binary _ _ left right => by simp only [relocated, text, text_relocated left, text_relocated right]

theorem texts_relocated : ∀ given : List Expr, texts (relocatedAll view given) = texts given
  | [] => rfl
  | e :: rest => by rw [relocatedAll, texts, texts, text_relocated e, texts_relocated rest]

end

mutual

theorem calls_relocated : ∀ e : Expr, (e.relocated view).calls = e.calls
  | .literal _ | .var _ _ _ | .hollow _ => rfl
  | .deref _ address _ => calls_relocated address
  | .step _ target _ => calls_relocated target
  | .addressOf _ target => calls_relocated target
  | .cast _ operand => calls_relocated operand
  | .call _ _ given => by simp only [relocated, calls, callsAll_relocated given]
  | .binary _ _ left right => by simp only [relocated, calls, calls_relocated left, calls_relocated right]

theorem callsAll_relocated : ∀ given : List Expr, callsAll (relocatedAll view given) = callsAll given
  | [] => rfl
  | e :: rest => by rw [relocatedAll, callsAll, callsAll, calls_relocated e, callsAll_relocated rest]

end

mutual

theorem relocated_id : ∀ e : Expr, e.relocated id = e
  | .literal _ | .var _ _ _ | .hollow _ => rfl
  | .deref info address displacement => congrArg (Expr.deref info · displacement) (relocated_id address)
  | .step info target down => congrArg (Expr.step info · down) (relocated_id target)
  | .addressOf info target => congrArg (Expr.addressOf info) (relocated_id target)
  | .cast info operand => congrArg (Expr.cast info) (relocated_id operand)
  | .call info name given => congrArg (Expr.call info name) (relocatedAll_id given)
  | .binary _ _ left right => by
    rw [relocated, relocated_id left, relocated_id right]
    rfl

theorem relocatedAll_id : ∀ given : List Expr, relocatedAll id given = given
  | [] => rfl
  | e :: rest => by rw [relocatedAll, relocated_id e, relocatedAll_id rest]

end

end Expr

namespace Build

variable (pos : Position) (op : Operator) (left right : Expr)

@[simp] theorem literal_relocated (value : Int) (ty : Ty) :
    (literal pos value ty).relocated view = literal (view pos) value ty := rfl

theorem number_relocated (value : Int) : (number pos value).relocated view = number (view pos) value := by
  rw [number, number]
  split <;> rfl

theorem scale_relocated (scaling : Scaling) (index : Expr) (size : Nat) :
    scale scaling (view pos) (index.relocated view) size =
      (scale scaling pos index size).map (Expr.relocated view) := by
  simp only [scale]
  split
  · rfl
  · cases scaling with
    | shift => exact Expr.relocated_keeps.shift index (literal pos (Nat.log2 size) .byte) pos .shiftLeft
    | multiply => exact Expr.relocated_keeps.arithmetic index (literal pos size .int) pos .multiply

theorem pointerArithmetic_relocated (scaling : Scaling) (pointer index : Expr) :
    pointerArithmetic scaling (view pos) op (pointer.relocated view) (index.relocated view) =
      (pointerArithmetic scaling pos op pointer index).map (Expr.relocated view) := by
  have keeps : Expr.Keeps view (Expr.relocated view) := Expr.relocated_keeps
  simp only [pointerArithmetic, ← keeps.convert, scale_relocated, keeps.ty_eq, keeps.isConstant_eq, keeps.value_eq, bind,
    Except.bind]
  cases scale scaling pos (convert index .int) pointer.ty.deref.size with
  | error => rfl
  | ok offset =>
    simp only [Except.map, keeps.isConstant_eq, keeps.value_eq]
    split
    · cases evaluate op pointer.value offset.value <;> rfl
    · rfl

theorem binary_relocated (scaling : Scaling) :
    binary scaling (view pos) op (left.relocated view) (right.relocated view) =
      (binary scaling pos op left right).map (Expr.relocated view) :=
  Expr.relocated_keeps.binary left right pos op fun pointer index _ _ =>
    pointerArithmetic_relocated pos op scaling pointer index

theorem index_relocated (scaling : Scaling) (base index : Expr) :
    Build.index scaling (view pos) (base.relocated view) (index.relocated view) =
      (Build.index scaling pos base index).map (Expr.relocated view) :=
  Expr.relocated_keeps.index pos fun _ => pointerArithmetic_relocated pos .add scaling base index

theorem addressOf_relocated (target : Expr) :
    addressOf (view pos) (target.relocated view) = (addressOf pos target).map (Expr.relocated view) := by
  have texts : (target.relocated view).text = target.text := Expr.text_relocated target
  cases target with
  | deref info address displacement =>
    simp only [Expr.relocated, addressOf]
    split <;> rfl
  | var => rfl
  | literal | step | addressOf | cast | call | binary | hollow =>
    exact congrArg (fun text => Except.error (BuildError.address text)) texts

end Build

namespace Rule

def Pending.relocated (view : Position → Position) (top : Pending) : Pending := { top with pos := view top.pos }

theorem applyPending_relocated (scaling : Scaling) (incoming : Option Operator) (pending : List Pending)
    (values : List Expr) :
    applyPending scaling incoming (pending.map (Pending.relocated view)) (values.map (Expr.relocated view)) =
      (applyPending scaling incoming pending values).map fun both =>
        (both.1.map (Pending.relocated view), both.2.map (Expr.relocated view)) := by
  induction pending generalizing values with
  | nil => rfl
  | cons top pending ih =>
    simp only [List.map_cons, applyPending, Pending.relocated]
    split
    · match values with
      | [] | [_] => rfl
      | right :: left :: rest =>
        simp only [List.map_cons, Build.binary_relocated, bind, Except.bind]
        cases Build.binary scaling top.pos top.op left right with
        | error => rfl
        | ok e => exact ih (e :: rest)
    · rfl

end Rule

namespace Stmt

mutual

def relocated (view : Position → Position) : Stmt → Stmt
  | .empty => .empty
  | .breakLoop pos cleanup => .breakLoop (view pos) cleanup
  | .continueLoop pos cleanup => .continueLoop (view pos) cleanup
  | .assembly pos lines => .assembly (view pos) lines
  | .branch pos condition yes no =>
    .branch (view pos) (condition.map (Expr.relocated view)) (yes.relocated view)
      (match no with | some s => some (s.relocated view) | none => none)
  | .forLoop pos init condition post body cleanup =>
    .forLoop (view pos) (match init with | some s => some (s.relocated view) | none => none)
      (condition.map (Expr.relocated view)) (post.map (Expr.relocated view)) (body.relocated view) cleanup
  | .whileLoop pos condition body => .whileLoop (view pos) (condition.map (Expr.relocated view)) (body.relocated view)
  | .ret pos value cleanup => .ret (view pos) (value.map (Expr.relocated view)) cleanup
  | .declare pos entry => .declare (view pos) { entry with init := entry.init.map (Expr.relocated view) }
  | .block pos body cleanup => .block (view pos) (relocatedAll view body) cleanup
  | .evaluate pos e => .evaluate (view pos) (e.relocated view)
  | .bare e => .bare (e.relocated view)
  | .stray pos inner => .stray (view pos) (inner.relocated view)
termination_by structural s => s

def relocatedAll (view : Position → Position) : List Stmt → List Stmt
  | [] => []
  | s :: rest => s.relocated view :: relocatedAll view rest
termination_by structural ss => ss

end

theorem relocatedAll_eq (body : List Stmt) : relocatedAll view body = body.map (relocated view) := by
  induction body with
  | nil => rfl
  | cons s rest ih => rw [relocatedAll, ih, List.map_cons]

theorem callsOptional_relocated (e : Option Expr) : callsOptional (e.map (Expr.relocated view)) = callsOptional e := by
  cases e with
  | none => rfl
  | some e => exact e.calls_relocated

mutual

theorem calls_relocated : ∀ s : Stmt, (s.relocated view).calls = s.calls
  | .empty | .breakLoop _ _ | .continueLoop _ _ | .assembly _ _ => rfl
  | .branch _ _ yes none => by simp only [relocated, calls, callsOptional_relocated, calls_relocated yes]
  | .branch _ _ yes (some no) => by
    simp only [relocated, calls, callsOptional_relocated, calls_relocated yes, calls_relocated no]
  | .forLoop _ none _ _ body _ => by simp only [relocated, calls, callsOptional_relocated, calls_relocated body]
  | .forLoop _ (some init) _ _ body _ => by
    simp only [relocated, calls, callsOptional_relocated, calls_relocated init, calls_relocated body]
  | .whileLoop _ _ body => by simp only [relocated, calls, callsOptional_relocated, calls_relocated body]
  | .ret _ value _ => callsOptional_relocated value
  | .declare _ entry => callsOptional_relocated entry.init
  | .block _ body _ => callsAll_relocated body
  | .evaluate _ e | .bare e => e.calls_relocated
  | .stray _ inner => calls_relocated inner

theorem callsAll_relocated : ∀ body : List Stmt, callsAll (relocatedAll view body) = callsAll body
  | [] => rfl
  | s :: rest => by rw [relocatedAll, callsAll, callsAll, calls_relocated s, callsAll_relocated rest]

end

mutual

theorem terminates_relocated : ∀ s : Stmt, (s.relocated view).terminates = s.terminates
  | .empty | .breakLoop _ _ | .continueLoop _ _ | .assembly _ _ | .branch _ _ _ none | .forLoop _ none _ _ _ _
  | .forLoop _ (some _) _ _ _ _ | .whileLoop _ _ _ | .ret _ _ _ | .declare _ _ | .evaluate _ _ | .bare _
  | .stray _ _ => rfl
  | .branch _ _ yes (some no) => by simp only [relocated, terminates, terminates_relocated yes, terminates_relocated no]
  | .block _ body _ => anyTerminates_relocated body

theorem anyTerminates_relocated : ∀ body : List Stmt, anyTerminates (relocatedAll view body) = anyTerminates body
  | [] => rfl
  | s :: rest => by
      rw [relocatedAll, anyTerminates, anyTerminates, terminates_relocated s, anyTerminates_relocated rest]

end

theorem relocatedOptional_id (e : Option Expr) : e.map (Expr.relocated id) = e := by
  cases e with
  | none => rfl
  | some e => exact congrArg some e.relocated_id

mutual

theorem relocated_id : ∀ s : Stmt, s.relocated id = s
  | .empty | .breakLoop _ _ | .continueLoop _ _ | .assembly _ _ => rfl
  | .branch _ _ yes none => by
    rw [relocated, relocatedOptional_id, relocated_id yes]
    rfl
  | .branch _ _ yes (some no) => by
    simp only [relocated, relocatedOptional_id, relocated_id yes, relocated_id no, id]
  | .forLoop _ none _ _ body _ => by
    rw [relocated, relocatedOptional_id, relocatedOptional_id, relocated_id body]
    rfl
  | .forLoop _ (some init) _ _ body _ => by
    simp only [relocated, relocatedOptional_id, relocated_id init, relocated_id body, id]
  | .whileLoop _ _ body => by
    rw [relocated, relocatedOptional_id, relocated_id body]
    rfl
  | .ret _ _ _ => by
    rw [relocated, relocatedOptional_id]
    rfl
  | .declare _ _ => by
    rw [relocated, relocatedOptional_id]
    rfl
  | .block pos _ cleanup => congrArg (Stmt.block pos · cleanup) (relocatedAll_id _)
  | .evaluate pos e => congrArg (Stmt.evaluate pos) e.relocated_id
  | .bare e => congrArg Stmt.bare e.relocated_id
  | .stray pos inner => congrArg (Stmt.stray pos) (relocated_id inner)

theorem relocatedAll_id : ∀ body : List Stmt, relocatedAll id body = body
  | [] => rfl
  | s :: rest => by rw [relocatedAll, relocated_id s, relocatedAll_id rest]

end

end Stmt

namespace Function

def relocated (view : Position → Position) (f : Function) : Function :=
  { f with pos := view f.pos, body := f.body.map (Stmt.relocated view) }

theorem isImplemented_relocated (f : Function) : (f.relocated view).isImplemented = f.isImplemented := Option.isSome_map

theorem relocated_id (f : Function) : f.relocated id = f := by
  have same : f.body.map (Stmt.relocated id) = f.body := by
    cases f.body with
    | none => rfl
    | some body => exact congrArg some body.relocated_id
  rw [relocated, same]
  rfl

end Function

def Program.relocated (view : Position → Position) (program : Program) : Program :=
  ⟨program.functions.map (Function.relocated view)⟩

theorem Program.relocated_id (program : Program) : program.relocated id = program := by
  have each : Function.relocated id = id := funext Function.relocated_id
  rw [relocated, each, List.map_id]

namespace Scope

theorem register_relocated (f : Function) (table : List Function) :
    register (f.relocated view) (table.map (Function.relocated view)) =
      (register f table).map (List.map (Function.relocated view)) := by
  induction table with
  | nil => rfl
  | cons known rest ih =>
    rw [List.map_cons, register, register, ih, Function.isImplemented_relocated]
    change (if known.name ≠ f.name then _ else if _ then _ else if known.paramTypes ≠ f.paramTypes then _
      else if known.returns ≠ f.returns then _ else _) = _
    split
    · cases register f rest <;> rfl
    repeat' split
    all_goals rfl

theorem findFunction_relocated (table : List Function) (name : Bytes) :
    (table.map (Function.relocated view)).find? (·.name = name) =
      (table.find? (·.name = name)).map (Function.relocated view) := by
  rw [List.find?_map]
  rfl

theorem implement_relocated (table : List Function) (name : Bytes) (body : Stmt) :
    (table.map fun f => if f.name = name then
        { f with body := some body, calls := (Node.stmt body).callNames } else f).map (Function.relocated view) =
      (table.map (Function.relocated view)).map fun f => if f.name = name then
        { f with body := some (body.relocated view), calls := (Node.stmt (body.relocated view)).callNames } else f := by
  simp only [List.map_map]
  refine List.map_congr_left fun f _ => ?_
  simp only [Function.comp]
  by_cases named : f.name = name
  · rw [if_pos named, if_pos (show (f.relocated view).name = name from named)]
    simp only [Function.relocated, Option.map_some, Node.callNames, Stmt.calls_relocated]
  · rw [if_neg named, if_neg (show ¬(f.relocated view).name = name from named)]

end Scope

end Cb
