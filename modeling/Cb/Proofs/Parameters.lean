import Cb.Proofs.ParameterSlots
import Cb.Proofs.Soundness

/-! How arguments get to the callee: callers push them into the slots that the body reads, except where a
parameter has one of the two names that every frame uses itself. -/

namespace Cb

theorem paramsBytes_eq (params : List Param) : paramsBytes params = 2 * params.length := by
  induction params with
  | nil => rfl
  | cons param rest ih =>
    simp only [paramsBytes] at ih
    rw [paramsBytes, List.map_cons, List.sum_cons, ih, Ty.paddedSize_eq, List.length_cons]
    omega

theorem Signature.slot_eq (f : Signature) (below : k < f.params.length) :
    f.slot k = 4 + 2 * (f.params.length - (k + 1)) := by
  rw [slot, paramsBytes_eq, List.length_drop]
  omega

theorem Memory.load_of_word (memory : Memory) (w : Width) (a : Address) (value : Int) :
    (memory.store .word a value).load w a = value % w.modulus := by
  cases w with
  | word => exact memory.load_store .word a value
  | byte =>
    rw [Memory.load_byte, memory.load_store .word a value]
    simp only [Width.modulus]
    omega

structure Machine.Pushed (w : Width) (value : Int) (m n : Machine) : Prop where
  bp : n.bp = m.bp
  sp : n.sp = m.sp - 2
  value : n.memory.load w n.sp = value
  memory : ∀ a, a ∉ Width.word.cells n.sp → n.memory a = m.memory a

namespace Lower

variable {m : Machine} {o : Operand} {value : Int}

theorem push_runs (held : m.get .word o = some word) (low : word % w.modulus = value) :
    Runs m [.push o] (m.Pushed w value) := by
  have stepped : m.step (.push o) = some (m.push .word word) := by simp [Machine.step, held]
  refine .single stepped ⟨rfl, rfl, ?_, fun a other => ?_⟩
  · rw [← low]
    exact m.memory.load_of_word w _ word
  · exact m.memory.store_of_not_mem word other

theorem read_full (m : Machine) (letter : Letter) :
    m.read (.general letter .full) % 256 = m.read (.general letter .low) := by
  have low := (m.general letter).low.isLt
  simp only [Machine.read]
  omega

theorem loaded_runs (held : m.get w o = some value) :
    Runs m [.mov (register (accumulator w)) o, .push (register .ax)] (m.Pushed w value) := by
  have bounds := Machine.get_bounds held
  have general : (accumulator w).isGeneral = true := by cases w <;> rfl
  have wide : (accumulator w).width = w := Register.width_sized _ w
  refine .cons (.mov (accumulator w) (wide.symm ▸ held) rfl) ?_
  rintro n rfl
  have low : (m.write value (accumulator w)).read .ax % w.modulus = value := by
    cases w with
    | byte =>
      rw [show Width.byte.modulus = 256 from rfl, Register.ax, read_full]
      exact m.read_write_of_lt _ bounds.1 bounds.2
    | word =>
      rw [show accumulator .word = .ax from rfl, m.read_write_of_lt .ax bounds.1 bounds.2]
      exact Int.emod_eq_of_lt bounds.1 bounds.2
  refine (push_runs (Machine.get_register _ .ax) low).imp fun n pushed => ⟨?_, ?_, pushed.value, fun a other => ?_⟩
  · exact pushed.bp.trans (m.write_bp value general)
  · rw [pushed.sp, m.write_sp value general]
  · rw [pushed.memory a other, m.write_memory value]

theorem pushResult_runs {ty : Ty} (fits : o.fits (.ofSize ty.size) = true)
    (held : m.get (.ofSize ty.size) o = some value) :
    Runs m (pushResult o ty.size) (m.Pushed (.ofSize ty.size) value) := by
  cases o with
  | none => cases fits
  | frame v offset | data v base displacement => exact loaded_runs held
  | immediate n =>
    refine push_runs (show m.get .word (.immediate n) = some (n % 65536) from rfl) ?_
    cases held
    cases Width.ofSize ty.size <;> simp only [Width.modulus] <;> omega
  | register r =>
    obtain ⟨general, wide⟩ := isGeneral_of_fits fits
    have read := Machine.read_of_get wide held
    simp only [pushResult, pushSlot, List.nil_append]
    split
    · rename_i isHigh
      subst isHigh
      rw [← wide] at held ⊢
      exact loaded_runs held
    · rename_i notHigh
      cases r with
      | base | stack => cases general
      | general letter part =>
        refine push_runs (Machine.get_register m (.general letter .full)) ?_
        rw [← wide, ← read]
        cases part with
        | low => exact read_full m letter
        | full => exact Int.emod_eq_of_lt (m.read_bounds _).1 (m.read_bounds _).2
        | high =>
          -- Of the upper halves only `ah` carries a value.
          simp only [Operand.fits, decide_eq_true_eq] at fits
          rw [← wide] at fits
          simp only [Register.width, Register.carriers, List.mem_cons, List.not_mem_nil, or_false] at fits
          rcases fits with isLow | isLow | isLow | isHigh
          · cases isLow
          · cases isLow
          · cases isLow
          · exact absurd isHigh notHigh

def calleeBase (popped : Bytes → Int) (given : List Expr) : Int := netEffect popped (arguments given).code - 2 - 2

end Lower

open Lower

structure Signature.Receives (g : Signature) (popped : Bytes → Int) (given : List Expr) : Prop where
  types : given.map Expr.ty = g.paramTypes
  bytes : netEffect popped (arguments given).code = -g.paramBytes
  /-- After an argument is pushed, the stack pointer is at its slot. -/
  slots : ∀ k e, given[k]? = some e → ∃ before after,
    (arguments given).code = before ++ (expression e).code
      ++ pushResult (expression e).result e.ty.size ++ after ∧
    netEffect popped (before ++ (expression e).code ++ pushResult (expression e).result e.ty.size) =
      calleeBase popped given + g.slot k
  values : ∀ e ∈ given, ∀ m value, Machine.get m (.ofSize e.ty.size) (expression e).result = some value →
    Runs m (pushResult (expression e).result e.ty.size) (m.Pushed (.ofSize e.ty.size) value)

theorem Signature.receives {g : Signature} (types : given.map Expr.ty = g.paramTypes)
    (values : ∀ ty ∈ g.paramTypes, ty.IsValue) (lowers : ∀ e ∈ given, e.Lowers popped) : g.Receives popped given := by
  have isValue (e : Expr) (member : e ∈ given) : e.ty.IsValue := values e.ty (types ▸ List.mem_map_of_mem member)
  have pushed {part : List Expr} (inside : ∀ e ∈ part, e ∈ given) :
      netEffect popped (arguments part).code = -2 * part.length :=
    (arguments_shifts fun e member =>
      ⟨_, (lowers e (inside e member)).supplies (isValue e (inside e member))⟩).2.2
  have count : given.length = g.params.length := by
    simpa [Signature.paramTypes] using congrArg List.length types
  have total : netEffect popped (arguments given).code = -2 * given.length := pushed fun _ member => member
  refine ⟨types, ?_, fun k e found => ?_, fun e member m value held => ?_⟩
  · rw [total, g.paramBytes_eq, count]
    omega
  · obtain ⟨below, isArgument⟩ := List.getElem?_eq_some_iff.mp found
    have parts : given = given.take k ++ ([e] ++ given.drop (k + 1)) := by
      rw [← isArgument, List.singleton_append, List.getElem_cons_drop, List.take_append_drop]
    -- Each argument takes one slot, so the stack pointer is at the one of the last argument pushed.
    have upTo : netEffect popped (arguments (given.take k ++ [e])).code = -2 * (k + 1 : Nat) := by
      have inside : ∀ x ∈ given.take k ++ [e], x ∈ given := by
        intro x member
        rw [parts]
        simp only [List.mem_append] at member ⊢
        rcases member with early | isLast
        · exact .inl early
        · exact .inr (.inl isLast)
      rw [pushed inside, List.length_append, List.length_take, List.length_singleton, Nat.min_eq_left (by omega)]
    refine ⟨(arguments (given.take k)).code, (arguments (given.drop (k + 1))).code, ?_, ?_⟩
    · rw [List.append_assoc _ (expression e).code, ← arguments_singleton, ← arguments_append,
        ← arguments_append, List.append_assoc, ← parts]
    · rw [List.append_assoc, ← arguments_singleton, ← arguments_append, upTo, calleeBase, total,
        g.slot_eq (by omega)]
      omega
  · exact pushResult_runs ((lowers e member).fits (isValue e member)) held

theorem Scope.findVariable?_lower (s : Scope) (name : Bytes) : s.findVariable? (lower name) = s.findVariable? name := by
  rw [findVariable?, findVariable?, lower_lower]

theorem Typed.reads_param (declared : Locals frame locals)
    (typed : Typed (frame.vocabulary locals) (.var info name offset)) (isParam : frame.params[k]? = some param)
    (named : lower name = param.name) :
    (info.ty = param.ty ∧ (expression (.var info name offset)).result =
        .frame (.ofSize param.ty.size) (4 + paramsBytes (frame.params.drop (k + 1)))) ↔
      param.name ≠ returnAddressName ∧ ∀ other ∈ frame.params, other.name ≠ savedBaseName := by
  cases typed with
  | var found =>
    obtain ⟨_, v, isFound, sameTy, sameOffset⟩ := found
    obtain ⟨below, rfl⟩ := List.getElem?_eq_some_iff.mp isParam
    have split : frame.params = frame.params.take k ++ frame.params[k] :: frame.params.drop (k + 1) := by simp
    rw [← Scope.findVariable?_lower, named] at isFound
    rw [← declared.found_param_iff split isFound, sameTy, sameOffset]
    constructor
    · rintro ⟨isTy, lowered⟩
      exact ⟨isTy, (Operand.frame.inj lowered).2⟩
    · rintro ⟨isTy, isSlot⟩
      subst isTy
      exact ⟨rfl, congrArg (Operand.frame _) isSlot⟩

namespace Program

structure PassesParameters (program : Program) (settings : Settings) : Prop where
  /-- A body reads a parameter from its slot, exactly if no name of the frame's own is in the way. -/
  reads : ∀ f ∈ program.functions, ∀ body, f.body = some body → ∀ info name offset,
    (Node.stmt body).Contains (.expr (.var info name offset)) →
      ∀ k param, f.params[k]? = some param → lower name = param.name →
        ((info.ty = param.ty ∧
            (expression (.var info name offset)).result = .frame (.ofSize param.ty.size) (f.slot k)) ↔
          param.name ≠ returnAddressName ∧ ∀ other ∈ f.params, other.name ≠ savedBaseName)
  calls : ∀ f ∈ program.functions, ∀ body, f.body = some body → ∀ info name given,
    (Node.stmt body).Contains (.expr (.call info name given)) →
      ∃ g ∈ program.functions, g.name = name ∧ g.Receives program.popped given ∧
        (expression (.call info name given)).code = (arguments given).code ++ [.call name]
  returns : ∀ f ∈ program.functions, ∀ body, f.body = some body → ∀ labels,
    ∀ line ∈ (procedure settings labels f body).lines, ∀ bytes, line.item = .instr (.ret bytes) →
      bytes = f.paramBytes

end Program

/-- A call fills the slots from which its callee reads the parameters, and the callee gives back as many bytes as the caller
pushed. -/
theorem parameters_passed {env : Env} {program : Program} (settings : Settings)
    (parsed : (parse env).program = .ok program) : program.PassesParameters settings := by
  have isTable := parse_isTable parsed
  refine ⟨fun f member body implemented info name offset inside k param isParam named => ?_,
    fun f member body implemented info name given inside => ?_,
    fun f member body implemented labels line there bytes isReturn => ?_⟩
  · obtain ⟨_, frame, params, _, _, accepts⟩ := isTable.accepted f member body implemented
    obtain ⟨scope, declared, typed⟩ := accepts.contains .nil (by simp) inside
    rw [Signature.slot, ← params]
    exact typed.reads_param declared (params ▸ isParam) named
  · obtain ⟨_, frame, _, _, keeps, accepts⟩ := isTable.accepted f member body implemented
    obtain ⟨scope, declared, typed⟩ := accepts.contains .nil (by simp) inside
    have balance : Lower.CallsBalance program.popped (frame.vocabulary scope) := by
      rintro _ ⟨g, known, rfl⟩
      exact program.popped_of_keeps isTable keeps known
    cases typed with
    | call found types inner =>
      obtain ⟨known, isKnown, rfl⟩ := found
      obtain ⟨g, there, sameName, sameTypes, _⟩ := keeps known isKnown
      refine ⟨g, there, sameName, Signature.receives (types.trans sameTypes.symm) (isTable.sound g there).params
        fun e argument => (inner e argument).lowers balance, rfl⟩
  · have settled := Program.settled settings isTable true (fun _ => rfl) member implemented labels
    rcases Lower.procedure_orderly settled line there with orderly | isOpening | isClosing | isBlank
    · rw [isReturn] at orderly
      exact of_decide_eq_true orderly
    all_goals
      rw [isReturn] at *
      contradiction

def scaling : Env where
  source :=
    { lines := #["int scale(byte b, int n, int* p) \x7b return *p + n * b; \x7d",
        "void main() \x7b int x = 2; scale(3, scale(1, x, &x), &x); \x7d"]
      origins := #["scaling.cb", "scaling.cb"] }
  settings := {}

theorem parameters_passed_scaling :
    ∃ program, (parse scaling).program = .ok program ∧
      (∃ f ∈ program.functions, f.body.isSome = true ∧ f.params.map Param.ty = [.byte, .int, Ty.int.ref]) ∧
      program.PassesParameters scaling.settings := by
  have accepted : (parse scaling).program.toOption.any (·.functions.any fun f =>
      f.body.isSome && f.params.map Param.ty = [.byte, .int, Ty.int.ref]) = true := by decide +kernel
  obtain ⟨program, parsed, hasThree⟩ := exists_of_any accepted
  obtain ⟨f, member, isThree⟩ := List.any_eq_true.mp hasThree
  simp only [Bool.and_eq_true, decide_eq_true_eq] at isThree
  exact ⟨program, parsed, ⟨f, member, isThree⟩, parameters_passed scaling.settings parsed⟩

def hidden : Env where
  source :=
    { lines := #["int f(int __previous_bp) \x7b return __previous_bp; \x7d void main() \x7b f(7); \x7d"]
      origins := #["hidden.cb"] }
  settings := {}

def Function.readsSavedBase (f : Function) : Bool :=
  match f.body with
  | some (.block _ [.ret _ (some (.var info name offset)) _] _) =>
    f.params = [⟨savedBaseName, .int⟩] && name = savedBaseName && offset = 0 &&
      (expression (.var info name offset)).result = .frame .word 0
  | _ => false

/-- The body reads the saved base pointer, not the argument. -/
theorem parameter_hidden_by_saved_base :
    ∃ program f body info, (parse hidden).program = .ok program ∧ f ∈ program.functions ∧ f.body = some body ∧
      (Node.stmt body).Contains (.expr (.var info savedBaseName 0)) ∧ f.params = [⟨savedBaseName, .int⟩] ∧
      f.slot 0 = 4 ∧ (Lower.expression (.var info savedBaseName 0)).result = .frame .word 0 := by
  have accepted : (parse hidden).program.toOption.any (·.functions.any Function.readsSavedBase) = true := by decide +kernel
  obtain ⟨program, parsed, hasReader⟩ := exists_of_any accepted
  obtain ⟨f, member, isReader⟩ := List.any_eq_true.mp hasReader
  rw [Function.readsSavedBase] at isReader
  split at isReader
  · rename_i pos retPos info name offset cleanup blockCleanup isBody
    simp only [Bool.and_eq_true, decide_eq_true_eq] at isReader
    obtain ⟨⟨⟨isParams, rfl⟩, rfl⟩, isFrame⟩ := isReader
    refine ⟨program, f, _, info, parsed, member, isBody, ?_, isParams, by rw [Signature.slot, isParams]; rfl, isFrame⟩
    have isReturn : .stmt (.ret retPos (some (.var info savedBaseName 0)) cleanup) ∈
        (Node.stmt (.block pos [.ret retPos (some (.var info savedBaseName 0)) cleanup] blockCleanup)).children :=
      List.mem_singleton.mpr rfl
    exact .part isReturn (.part (List.mem_singleton.mpr rfl) (.self _))
  · cases isReader

end Cb
