import Cb.Proofs.StackDiscipline

/-! Whatever was read and linked is lowered: no error is met in any procedure, and every instruction of the
listing is one that the processor has. -/

namespace Cb

theorem append_split (shape : first ++ second = before ++ line :: after) :
    (∃ rest, first = before ++ line :: rest ∧ after = rest ++ second) ∨
      ∃ rest, before = first ++ rest ∧ second = rest ++ line :: after := by
  rcases List.append_eq_append_iff.mp shape with later | ⟨between, isFirst, rest⟩
  · exact .inr later
  · cases between with
    | nil => exact .inr ⟨[], by simpa using isFirst.symm, rest.symm⟩
    | cons head tail =>
      obtain ⟨rfl, rfl⟩ := List.cons.inj rest
      exact .inl ⟨tail, isFirst, rfl⟩

theorem Item.isSound_of_isOrderly (orderly : (Item.instr i).isOrderly raw paramBytes = true) : i.isSound = true := by
  cases i with
  | ret => rfl
  | mov | arithmetic | shiftLeft | shiftRight | mul | div | inc | dec | push | pop | pushByte | popByte | popBytes
  | call | jump | jumpIf => exact orderly

namespace Lower

variable {settings : Settings} {needed : List Bytes} {labels : Nat} {f : Function} {body : Stmt} {raw : Bool}

theorem procedure_tidy {p : Limits} (own : p.numbers f.paramBytes) (low : indent ≤ 1)
    (tidy : Tidy (Line.Obeys p f.paramBytes indent) [] dead bound ((bodySite settings labels f).emitted body).lines) :
    ∃ inside, (procedure settings labels f body).lines = [⟨0, .comment f.text⟩, ⟨0, .procedure f.name⟩] ++ inside
        ++ [⟨0, .endProcedure f.name⟩, ⟨0, .blank⟩] ∧
      Tidy (Line.Obeys p f.paramBytes indent) [] dead bound inside := by
  let inner : Context := { (bodySite settings 0 f).ctx with indent := 1 }
  have pushed : Formed p [.push (register .base)] := .single rfl (by simp [Instr.operands, register, Operand.Shows])
  have opens : Unlabelled (inner.Keeps p) []
      (inner.comment "init stack frame" ++ inner.code [.push (register .base), .mov (register .base) (register .stack)]) :=
    .preceded (.comment _ _) (.code _ (pushed.append (.mov (Operand.reads_register p rfl))) (by simp) (by simp [Item.target?]))
  have closes (returned : Bool) : Unlabelled (inner.Keeps p) []
      (inner.code (if returned then [] else epilogue f.paramBytes)) := by
    split
    · exact .nil
    · exact .epilogue _ own
  rw [procedure_eq]
  refine ⟨_, ?_, ((opens.outdent low).preceded tidy).followed
    ((closes ((bodySite settings labels f).emitted body).terminates).outdent low)⟩
  simp only [opening, closing, List.append_assoc]
  rfl

theorem procedure_lines (settled : SettledBody raw settings labels f body) :
    ∃ inside, (procedure settings labels f body).lines = [⟨0, .comment f.text⟩, ⟨0, .procedure f.name⟩] ++ inside
        ++ [⟨0, .endProcedure f.name⟩, ⟨0, .blank⟩] ∧
      Tidy (Line.Obeys (.any raw) f.paramBytes 0) [] (fun l => (deadEnds body (bodySite settings labels f)).count l)
        (Label.between labels (procedure settings labels f body).labels) inside := by
  have grown : (procedure settings labels f body).labels = ((bodySite settings labels f).emitted body).labels := by
    rw [procedure_eq]
  rw [grown]
  exact procedure_tidy trivial (Nat.zero_le _) settled.tidy

theorem procedure_orderly (settled : SettledBody raw settings labels f body) :
    ∀ line ∈ (procedure settings labels f body).lines, line.item.isOrderly raw f.paramBytes = true ∨
      line.item = .procedure f.name ∨ line.item = .endProcedure f.name ∨ line.item = .blank := by
  obtain ⟨inside, shape, tidy⟩ := procedure_lines settled
  intro line member
  rw [shape] at member
  simp only [List.mem_append, List.mem_cons, List.not_mem_nil, or_false] at member
  rcases member with ((rfl | rfl) | isInside) | (rfl | rfl)
  · exact .inl rfl
  · exact .inr (.inl rfl)
  · exact .inl (tidy.obeys line isInside).orderly
  · exact .inr (.inr (.inl rfl))
  · exact .inr (.inr (.inr rfl))

inductive Placed (settings : Settings) (needed : List Bytes) (labels : Nat) (list : List Function) :
    List Line → Line → List Line → Prop
  | last {before after : List Line} : Placed settings needed labels list before ⟨0, .verbatim "END program"⟩ after
  | inside {front early late rear : List Line} {line : Line} {start : Nat} {f : Function} {body : Stmt}
      (emits : Emits settings needed labels list front start f body)
      (shape : (procedure settings start f body).lines = early ++ line :: late) :
      Placed settings needed labels list (front ++ early) line (late ++ rear)

namespace Placed

variable {list : List Function} {before after : List Line} {line : Line}

theorem skip (left : f.body = none ∨ needed.contains f.name = false)
    (placed : Placed settings needed labels list before line after) :
    Placed settings needed labels (f :: list) before line after := by
  cases placed with
  | last => exact .last
  | inside emits shape => exact .inside (.skip left emits) shape

theorem later (implemented : f.body = some body) (used : needed.contains f.name = true)
    (fine : (procedure settings labels f body).error = none)
    (placed : Placed settings needed (procedure settings labels f body).labels list before line after) :
    Placed settings needed labels (f :: list) ((procedure settings labels f body).lines ++ before) line after := by
  cases placed with
  | last => exact .last
  | inside emits shape =>
    rw [← List.append_assoc]
    exact .inside (.later implemented used fine emits) shape

end Placed

structure EmitsAll (settings : Settings) (needed : List Bytes) (labels : Nat) (list : List Function) : Prop where
  succeeds : (functions settings needed labels list).problem = none
  emits : ∀ f ∈ list, ∀ body, f.body = some body → needed.contains f.name = true →
    ∃ before start, Emits settings needed labels list before start f body
  lines : ∀ before line after, (functions settings needed labels list).lines = before ++ line :: after →
    Placed settings needed labels list before line after

namespace EmitsAll

variable {list : List Function}

theorem nil : EmitsAll settings needed labels [] := by
  refine ⟨rfl, nofun, fun before line after shape => ?_⟩
  have isLast : line ∈ [(⟨0, .verbatim "END program"⟩ : Line)] := by
    rw [show [_] = before ++ line :: after from shape]
    simp
  rw [List.mem_singleton.mp isLast]
  exact .last

theorem skip (left : f.body = none ∨ needed.contains f.name = false) (others : EmitsAll settings needed labels list) :
    EmitsAll settings needed labels (f :: list) := by
  refine ⟨?_, fun g member body implemented used => ?_, fun before line after shape => ?_⟩
  · cases implemented : f.body with
    | none => simpa only [functions, implemented] using others.succeeds
    | some body =>
      rw [implemented] at left
      simp only [functions, implemented, left.resolve_left (by simp), Bool.false_eq_true, ↓reduceIte]
      split <;> exact others.succeeds
  · rcases List.mem_cons.mp member with rfl | later
    · rw [implemented, used] at left
      simp at left
    · obtain ⟨before, start, there⟩ := others.emits g later body implemented used
      exact ⟨before, start, .skip left there⟩
  · rw [functions_lines_of_left left] at shape
    exact (others.lines before line after shape).skip left

theorem cons (implemented : f.body = some body) (used : needed.contains f.name = true)
    (fine : (procedure settings labels f body).error = none)
    (others : EmitsAll settings needed (procedure settings labels f body).labels list) :
    EmitsAll settings needed labels (f :: list) := by
  refine ⟨?_, fun g member code isBody needs => ?_, fun before line after shape => ?_⟩
  · simp only [functions, implemented, used, fine, ↓reduceIte]
    exact others.succeeds
  · rcases List.mem_cons.mp member with rfl | later
    · exact ⟨[], labels, .here isBody needs⟩
    · obtain ⟨before, start, there⟩ := others.emits g later code isBody needs
      exact ⟨_, start, .later implemented used fine there⟩
  · rw [functions_lines_of_used implemented used fine] at shape
    rcases append_split shape with ⟨late, inside, rfl⟩ | ⟨between, rfl, rest⟩
    · exact .inside (.here implemented used) inside
    · exact (others.lines between line after rest).later implemented used fine

end EmitsAll

theorem functions_emitsAll
    (fine : ∀ f ∈ list, ∀ body, f.body = some body → ∀ labels, (procedure settings labels f body).error = none)
    (labels : Nat) : EmitsAll settings needed labels list :=
  functions_induction settings needed list fine (fun _ => .nil) .skip .cons labels

end Lower

namespace Program

variable {program : Program} {settings : Settings}

theorem procedure_fine (isTable : IsTable program.functions) (member : f ∈ program.functions)
    (implemented : f.body = some body) (labels : Nat) : (Lower.procedure settings labels f body).error = none :=
  (settled settings isTable true (fun _ => rfl) member implemented labels).fine

theorem mem_code (isTable : IsTable program.functions)
    (member : line ∈ (Lower.functions settings needed 0 program.functions).lines) :
    line = ⟨0, .verbatim "END program"⟩ ∨ ∃ front start f body,
      Lower.Emits settings needed 0 program.functions front start f body ∧
        line ∈ (Lower.procedure settings start f body).lines := by
  obtain ⟨before, after, shape⟩ := List.append_of_mem member
  have all : Lower.EmitsAll settings needed 0 program.functions :=
    Lower.functions_emitsAll (fun f member body implemented => procedure_fine isTable member implemented) 0
  cases all.lines before line after shape with
  | last => exact .inl rfl
  | inside emits inside => exact .inr ⟨_, _, _, _, emits, by simp [inside]⟩

theorem generate_cases (isTable : IsTable program.functions) (allowed : program.hasAssembly = true → raw = true)
    (member : line ∈ (program.generate settings).lines) :
    line ∈ Lower.header.lines ∨ line = ⟨0, .verbatim "END program"⟩ ∨ ∃ f : Function,
      line.item.isOrderly raw f.paramBytes = true ∨ line.item = .procedure f.name ∨ line.item = .endProcedure f.name ∨
        line.item = .blank := by
  cases linked : program.reachable with
  | error error =>
    -- Nothing is printed for a program that cannot be linked.
    rw [generate, linked] at member
    cases member
  | ok needed =>
    rw [generate_lines linked] at member
    rcases List.mem_append.mp member with isHeader | isCode
    · exact .inl isHeader
    · rcases mem_code isTable isCode with isLast | ⟨front, start, f, body, emits, inside⟩
      · exact .inr (.inl isLast)
      · obtain ⟨isFunction, implemented⟩ := emits.implemented
        have settled := settled settings isTable raw allowed isFunction implemented start
        exact .inr (.inr ⟨f, Lower.procedure_orderly settled line inside⟩)

structure GeneratesFully (program : Program) (settings : Settings) (needed : List Bytes) : Prop where
  succeeds : (program.generate settings).problem = none
  emits : ∀ f ∈ program.functions, ∀ body, f.body = some body → needed.contains f.name = true →
    ∃ before start, Lower.Emits settings needed 0 program.functions before start f body
  fine : ∀ before start f body, Lower.Emits settings needed 0 program.functions before start f body →
    (Lower.procedure settings start f body).error = none
  sound : ∀ line ∈ (program.generate settings).lines, ∀ i, line.item = .instr i → i.isSound = true
  inLoops : ∀ front start f body, Lower.Emits settings needed 0 program.functions front start f body →
    ∀ before inner t, Lower.Part (Lower.bodySite settings start f) [body] before inner t → t.leavesRound = true →
      inner.ctx.loop.isSome = true

end Program

/-- An accepted source that can be linked is lowered without an error: each needed function has its procedure, every
instruction is one that the processor has, and every break and continue stands in a loop. -/
theorem generate_succeeds {env : Env} {program : Program} {settings : Settings} {needed : List Bytes}
    (parsed : (parse env).program = .ok program) (linked : program.reachable = .ok needed) :
    program.GeneratesFully settings needed := by
  have isTable := parse_isTable parsed
  obtain ⟨succeeds, emits, _⟩ : Lower.EmitsAll settings needed 0 program.functions :=
    Lower.functions_emitsAll (fun f member body implemented => Program.procedure_fine isTable member implemented) 0
  refine ⟨?_, emits, fun before start f body emits => ?_, fun line member i isInstr => ?_,
    fun front start f body emits before inner t part leaves => ?_⟩
  · rw [Program.generate, linked]
    exact succeeds
  · obtain ⟨member, implemented⟩ := emits.implemented
    exact Program.procedure_fine isTable member implemented start
  · rcases Program.generate_cases isTable (fun _ => rfl) member with isHeader | rfl | ⟨f, kind⟩
    · exact absurd isInstr (Lower.ne_instr_of_header isHeader i)
    · cases isInstr
    · rw [isInstr] at kind
      rcases kind with orderly | isOpening | isClosing | isBlank
      · exact Item.isSound_of_isOrderly orderly
      · cases isOpening
      · cases isClosing
      · cases isBlank
  · obtain ⟨member, implemented⟩ := emits.implemented
    obtain ⟨_, frame, _, _, _, accepts⟩ := isTable.accepted f member body implemented
    exact accepts.inLoop part (by simp) leaves

def doubling : Env where
  source :=
    { lines := #["int twice(int n) \x7b return n << 1; \x7d void main() \x7b byte b[4];",
        "for (int i = 0; i < 4; ++i) \x7b if (i == 2) continue; b[i] = (byte) twice(i); \x7d \x7d"]
      origins := #["doubling.cb", "doubling.cb"] }
  settings := {}

theorem generate_succeeds_doubling :
    ∃ program needed, (parse doubling).program = .ok program ∧ program.reachable = .ok needed ∧
      program.GeneratesFully doubling.settings needed := by
  have accepted : (parse doubling).program.toOption.any (·.reachable.toOption.isSome) = true := by decide +kernel
  obtain ⟨program, parsed, isLinked⟩ := exists_of_any accepted
  obtain ⟨needed, linked⟩ := exists_of_isSome isLinked
  exact ⟨program, needed, parsed, linked, generate_succeeds parsed linked⟩

end Cb
