import Cb.Proofs.FrameLayout
import Cb.Proofs.NeededProcedures
import Cb.Proofs.Numerals

/-! How great the numbers of a listing get: constants and displacements fit 16 bits, and whatever is greater counts
bytes of a frame. -/

namespace Cb

theorem Operand.Shows.numbers {p : Limits} {o : Operand} (shows : o.Shows p) : ∀ n ∈ o.numbers, p.numbers n := by
  have number {value : Int} (allowed : p.numbers value.natAbs) : ∀ n ∈ shown value, p.numbers n := by
    rw [shown]
    split
    · simp
    · simpa using allowed
  cases o with
  | none | register => simp [Operand.numbers]
  | immediate value => exact List.forall_mem_singleton.mpr shows
  | frame w offset => exact number shows
  | data w base displacement =>
    cases base with
    | bx => exact number shows
    | address value => exact List.forall_mem_cons.mpr ⟨shows.1, number shows.2⟩

namespace Stack

theorem bytes_reverse (entries : Stack) : bytes entries.reverse = bytes entries := by
  induction entries with
  | nil => rfl
  | cons entry rest ih =>
    rw [List.reverse_cons, bytes_append, ih, bytes_cons, bytes_cons, bytes_nil]
    omega

end Stack

namespace Frame

variable (frame : Frame)

theorem size_of_slot (member : .slot name ty size ∈ frame.slots) : size = 2 := by
  simp only [slots, List.mem_cons, List.mem_map] at member
  rcases member with isBase | isReturn | ⟨param, _, isParam⟩
  · exact (Entry.slot.inj isBase).2.2
  · exact (Entry.slot.inj isReturn).2.2
  · rw [← (Entry.slot.inj isParam).2.2, Ty.paddedSize_eq]
    rfl

theorem bytes_slots : Stack.bytes frame.slots = 4 + paramsBytes frame.params := by
  have order : paramsBytes frame.params.reverse = paramsBytes frame.params := by
    rw [paramsBytes, List.map_reverse, List.sum_reverse]
    rfl
  simp only [slots, Stack.bytes_cons, Stack.bytes_params, Entry.size, order]
  omega

end Frame

theorem Frame.sizes_nonneg (frame : Frame) : ∀ entry ∈ frame.slots ++ [.functionMark], 0 ≤ entry.size := by
  intro entry member
  cases entry with
  | slot name ty size =>
    have isSlot : .slot name ty size ∈ frame.slots := by simpa using member
    rw [frame.size_of_slot isSlot]
    exact (by decide : (0 : Int) ≤ 2)
  | functionMark | blockMark => exact Int.le_refl 0

theorem Frame.offset_within {frame : Frame}
    (found : Stack.findFrom name above (frame.slots ++ [.functionMark]) = some v) :
    v.offset.natAbs ≤ paramsBytes frame.params + 2 := by
  obtain ⟨_, _, before, after, split, place⟩ := Stack.split_of_findFrom found
  have sizes := frame.sizes_nonneg
  have positive : 0 ≤ paramsBytes frame.params := by
    rw [← Stack.bytes_params]
    exact Stack.bytes_nonneg (Param.sizes_nonneg frame.params)
  have isSlot : .slot v.name v.ty v.size ∈ frame.slots ++ [.functionMark] := by simp [split]
  have two : v.size = 2 := frame.size_of_slot (by simpa using isSlot)
  have total := congrArg Stack.bytes split
  simp only [Stack.bytes_append, frame.bytes_slots, Stack.bytes_cons, Stack.bytes_nil, Entry.size, two] at total
  rw [split, List.forall_mem_append] at sizes
  rw [Frame.slots, List.cons_append] at split
  cases before with
  | nil =>
    obtain ⟨isBase, _⟩ := List.cons.inj split
    have zero : v.offset = 0 := by
      rw [place, ← isBase]
      simp [Stack.offset, Stack.belowBase?, Entry.isFunctionMark, Entry.isSavedBase]
    omega
  | cons base between =>
    obtain ⟨isBase, rest⟩ := List.cons.inj split
    have own : base.size = 2 := by
      rw [← isBase]
      rfl
    have later := Stack.bytes_nonneg fun entry member => sizes.2 entry (List.mem_cons_of_mem _ member)
    have earlier := Stack.bytes_nonneg fun entry member => sizes.1 entry (List.mem_cons_of_mem _ member)
    rw [Stack.bytes_cons, own] at total
    rw [place, Stack.offset]
    split
    · rename_i n counted
      obtain ⟨low, high⟩ := Stack.belowBase?_bounds sizes.2 n counted
      simp only [Stack.bytes_cons, Entry.size, two] at high
      omega
    · have taken : ∃ entry ∈ (base :: between).reverse, entry.isSavedBase = true :=
        ⟨base, by simp, by rw [← isBase]; rfl⟩
      obtain ⟨n, counted, low, high⟩ :=
        Stack.toBase?_le above (fun entry member => sizes.1 entry (List.mem_reverse.mp member)) taken
      rw [Stack.bytes_reverse, Stack.bytes_cons, own] at high
      rw [counted, Option.getD_some]
      omega

namespace Locals

variable {frame : Frame} {locals : List Declaration}

theorem local_or_slot (declared : Locals frame locals)
    (found : Stack.findFrom (lower name) [] (frame.scope.grow locals).stack = some v) :
    (∃ entry ∈ locals, entry.name = lower name) ∨
      lower name ≠ [] ∧ ∃ ty size, .slot (lower name) ty size ∈ frame.slots := by
  obtain ⟨named, same, member⟩ := Stack.slot_of_findFrom found
  have stack : (frame.scope.grow locals).stack = locals.flatMap Declaration.slots ++ (frame.slots ++ [.functionMark]) :=
    congrArg _ frame.scope_stack
  rw [stack, List.mem_append, same] at member
  rw [same] at named
  rcases member with isLocal | isSlot
  · obtain ⟨entry, here, isSlot⟩ := List.mem_flatMap.mp isLocal
    simp only [Declaration.slots, List.mem_cons, Entry.slot.injEq] at isSlot
    rcases isSlot with ⟨sameName, _⟩ | isStorage
    · exact .inl ⟨entry, here, by rw [sameName, declared.lower_name here]⟩
    · split at isStorage
      · simp only [List.mem_singleton, Entry.slot.injEq] at isStorage
        exact absurd isStorage.1 named
      · cases isStorage
  · exact .inr ⟨named, _, _, by simpa using isSlot⟩

theorem natAbs_offset_le (declared : Locals frame locals) (found : (frame.vocabulary locals).names name ty offset) :
    offset.natAbs ≤ localsBytes locals ∨ offset.natAbs ≤ paramsBytes frame.params + 2 := by
  obtain ⟨_, v, found, rfl, rfl⟩ := found
  rw [Scope.findVariable?] at found
  rcases declared.local_or_slot found with ⟨entry, member, named⟩ | ⟨named, ty, size, isSlot⟩
  · rw [← named, declared.findFrom_eq member] at found
    cases found
    have within := declared.extents_within ⟨entry.offset, entry.offset + entry.ty.paddedSize⟩
      (List.mem_flatMap.mpr ⟨entry, member, List.mem_cons_self⟩)
    simp only at within ⊢
    omega
  · have passed := declared.findVariable?_eq named isSlot (lower_lower name)
    rw [Scope.findVariable?, lower_lower] at passed
    exact .inr (Frame.offset_within (passed.symm.trans found))

end Locals

def Shallow (limit : Nat) (locals : List Declaration) (body : List Stmt) : Prop :=
  ∀ inner pos entry, Stands locals body inner (.stmt (.declare pos entry)) → -entry.offset ≤ limit

theorem Lower.Part.stands (part : Part site body before nested t) : Stands site.locals body nested.locals (.stmt t) := by
  induction part with
  | here => exact .here
  | later _ _ ih => exact .later ih
  | block _ ih | yes _ ih | yesOr _ ih | no _ ih | whileBody _ ih | forInit _ ih => exact .row (by simp [Stmt.rows]) ih
  | forBody _ ih => exact .loopBody ih

def shownNumbers (lines : List Line) : List Nat :=
  lines.flatMap fun line => match line.item with
    | .instr i => if i.namesSymbol then [] else i.text.numerals
    | _ => []

theorem mem_shownNumbers :
    n ∈ shownNumbers lines ↔
      ∃ line ∈ lines, ∃ i, line.item = .instr i ∧ i.namesSymbol = false ∧ n ∈ i.text.numerals := by
  rw [shownNumbers, List.mem_flatMap]
  refine exists_congr fun line => and_congr_right fun _ => ?_
  constructor
  · intro shown
    split at shown
    · rename_i i isInstr
      split at shown
      · cases shown
      · rename_i plain
        exact ⟨i, isInstr, by simpa using plain, shown⟩
    · cases shown
  · rintro ⟨i, isInstr, plain, shown⟩
    simpa [isInstr, plain] using shown

def Function.Allows (f : Function) (body : Stmt) (n : Nat) : Prop :=
  n ≤ 65535 ∨ n ≤ f.paramBytes + 2 ∨
    ∃ inner pos entry, Stands [] [body] inner (.stmt (.declare pos entry)) ∧ n ≤ -entry.offset

theorem Signature.paramBytes_cast (f : Signature) : (f.paramBytes : Int) = paramsBytes f.params := by
  rw [paramBytes, paramsBytes]
  induction f.params with
  | nil => rfl
  | cons param rest ih => simp [ih]

namespace Program

variable {program : Program} {settings : Settings} {needed : List Bytes} {f : Function} {body : Stmt}

structure ShowsNumbers (program : Program) (settings : Settings) (needed : List Bytes) : Prop where
  allowed : ∀ n ∈ shownNumbers (program.generate settings).lines, ∃ f ∈ program.functions, ∃ body,
    f.body = some body ∧ needed.contains f.name = true ∧ f.Allows body n
  fits : (∀ f ∈ program.functions, ∀ body, f.body = some body → needed.contains f.name = true →
      f.paramBytes + 2 ≤ 65535 ∧ Shallow 65535 [] [body]) →
    ∀ n ∈ shownNumbers (program.generate settings).lines, n ≤ 65535
  arrays : ∀ front start f body, Lower.Emits settings needed 0 program.functions front start f body →
    ∀ before inner pos entry, Lower.Part (Lower.bodySite settings start f) [body] before inner (.declare pos entry) →
      ∀ storage ∈ entry.array, storage.offset.natAbs ∈ shownNumbers (program.generate settings).lines

theorem allows_of_mem (isTable : IsTable program.functions) (member : f ∈ program.functions)
    (implemented : f.body = some body) (inside : line ∈ (Lower.procedure settings start f body).lines)
    (isInstr : line.item = .instr i) (plain : i.namesSymbol = false) (shown : n ∈ i.text.numerals) :
    f.Allows body n := by
  rw [Instr.numerals_text plain, List.mem_flatMap] at shown
  obtain ⟨o, isOperand, isNumber⟩ := shown
  obtain ⟨_, frame, params, _, keeps, accepts⟩ := isTable.accepted f member body implemented
  have sameBytes := f.paramBytes_cast
  rw [← params] at sameBytes
  let p : Limits := ⟨true, f.Allows body, fun _ => True⟩
  have near {locals : List Declaration} (declared : Locals frame locals) (deep : p.Allows (localsBytes locals)) :
      p.Covers (frame.vocabulary locals) :=
    ⟨fun _ small => Or.inl small, fun found => (declared.natAbs_offset_le found).elim (deep _) fun high =>
      Or.inr (.inl (by omega))⟩
  have own : p.numbers f.paramBytes := Or.inr (.inl (Nat.le_add_right ..))
  have settled := accepts.settled (fun g known => program.popped_of_keeps isTable keeps known) near
    ⟨.nil, fun n none => Or.inl (by simp at none; omega), nofun, fun inner pos entry stands n below =>
      Or.inr (.inr ⟨inner, pos, entry, stands, below⟩), fun _ _ => trivial, fun _ => rfl⟩
    (Lower.bodySite settings start f) own nofun
  obtain ⟨lines, shape, tidy⟩ := Lower.procedure_tidy own (Nat.zero_le 1) (Lower.Settled.single.mp settled).tidy
  rw [shape] at inside
  simp only [List.mem_append, List.mem_cons, List.not_mem_nil, or_false] at inside
  rcases inside with ((rfl | rfl) | isInside) | (rfl | rfl)
  case inl.inr => exact (((tidy.obeys line isInside).formed i isInstr).shows o isOperand).numbers n isNumber
  all_goals cases isInstr

theorem mem_generate_of_part (linked : program.reachable = .ok needed) {start : Nat}
    (emits : Lower.Emits settings needed 0 program.functions front start f body)
    (part : Lower.Part (Lower.bodySite settings start f) [body] before nested t) :
    ∀ line ∈ (nested.emitted t).lines, line ∈ (program.generate settings).lines := by
  intro line member
  obtain ⟨rear, listing⟩ := emits.lines_eq
  obtain ⟨after, emitted⟩ := part.lines_eq
  rw [Lower.Site.emittedAll_singleton] at emitted
  rw [generate_lines linked, listing, Lower.procedure_eq]
  simp only [emitted, List.mem_append]
  exact .inr (.inl (.inr (.inl (.inr (.inl (.inr member))))))

theorem mem_procedure (isTable : IsTable program.functions) (linked : program.reachable = .ok needed)
    (member : line ∈ (program.generate settings).lines) (isInstr : line.item = .instr i) :
    ∃ front start f body, Lower.Emits settings needed 0 program.functions front start f body ∧
      line ∈ (Lower.procedure settings start f body).lines := by
  rw [generate_lines linked] at member
  rcases List.mem_append.mp member with isHeader | isCode
  · exact absurd isInstr (Lower.ne_instr_of_header isHeader i)
  · rcases mem_code isTable isCode with rfl | emitted
    · cases isInstr
    · exact emitted

end Program

/-- No number in a listing is greater than its function allows, so all of them fit 16 bits where all frames do. An array
shows its own depth, so that one which lies too deep shows a number that does not fit. -/
theorem numbers_allowed {env : Env} {program : Program} {settings : Settings} {needed : List Bytes}
    (parsed : (parse env).program = .ok program) (linked : program.reachable = .ok needed) :
    program.ShowsNumbers settings needed := by
  have isTable := parse_isTable parsed
  have allowed (n : Nat) (member : n ∈ shownNumbers (program.generate settings).lines) :
      ∃ f ∈ program.functions, ∃ body, f.body = some body ∧ needed.contains f.name = true ∧ f.Allows body n := by
    obtain ⟨line, isLine, i, isInstr, plain, shown⟩ := mem_shownNumbers.mp member
    obtain ⟨_, start, f, body, emits, inside⟩ := Program.mem_procedure isTable linked isLine isInstr
    obtain ⟨isFunction, implemented⟩ := emits.implemented
    have allows := Program.allows_of_mem isTable isFunction implemented inside isInstr plain shown
    exact ⟨f, isFunction, body, implemented, emits.used, allows⟩
  refine ⟨allowed, fun small n shown => ?_, fun front start f body emits before inner pos entry part storage isArray => ?_⟩
  · obtain ⟨f, isFunction, body, implemented, used, allows⟩ := allowed n shown
    obtain ⟨high, shallow⟩ := small f isFunction body implemented used
    rcases allows with fits | isHigh | ⟨inner, pos, entry, stands, isDeep⟩
    · exact fits
    · omega
    · have := shallow inner pos entry stands
      omega
  · obtain ⟨isFunction, implemented⟩ := emits.implemented
    obtain ⟨_, frame, _, _, _, accepts⟩ := isTable.accepted f isFunction body implemented
    obtain ⟨_, new⟩ := accepts.admits .nil part.stands
    obtain ⟨_, positive, _⟩ := new.liesBelow.storage storage isArray
    refine mem_shownNumbers.mpr
      ⟨⟨inner.ctx.indent, .instr (.arithmetic .sub (Lower.register .dx) (.immediate (-storage.offset)))⟩,
        Program.mem_generate_of_part linked emits part _ ?_, _, rfl, rfl, ?_⟩
    · rw [inner.emitted_declare, Lower.declaration_array isArray positive]
      simp [Lower.Context.code]
    · rw [Instr.numerals_text rfl]
      simp [Instr.operands, Operand.numbers]

def nearFrame : Env where
  source :=
    { lines := #["int far(int a, byte b) \x7b int c[3]; byte d[5]; d[4] = b; return c[2] - a; \x7d",
        "void main() \x7b far(-1, 255); \x7d"]
      origins := #["near.cb", "near.cb"] }
  settings := {}

theorem numbers_allowed_nearFrame :
    ∃ program needed, (parse nearFrame).program = .ok program ∧ program.reachable = .ok needed ∧
      program.ShowsNumbers nearFrame.settings needed := by
  have accepted : (parse nearFrame).program.toOption.any (·.reachable.toOption.isSome) = true := by decide +kernel
  obtain ⟨program, parsed, isLinked⟩ := exists_of_any accepted
  obtain ⟨needed, linked⟩ := exists_of_isSome isLinked
  exact ⟨program, needed, parsed, linked, numbers_allowed parsed linked⟩

def wideFrame : Env where
  source := { lines := #["void main() \x7b int a[40000]; \x7d"], origins := #["wide.cb"] }
  settings := {}

theorem numbers_exceed_wideFrame :
    ∃ program, (parse wideFrame).program = .ok program ∧ program.hasAssembly = false ∧
      (program.generate wideFrame.settings).problem = none ∧
      80000 ∈ shownNumbers (program.generate wideFrame.settings).lines := by
  have accepted : (parse wideFrame).program.toOption.any (fun program =>
      !program.hasAssembly && (program.generate wideFrame.settings).problem.isNone &&
        decide (80000 ∈ shownNumbers (program.generate wideFrame.settings).lines)) = true := by decide +kernel
  obtain ⟨program, parsed, fine⟩ := exists_of_any accepted
  simp only [Bool.and_eq_true, Bool.not_eq_true', Option.isNone_iff_eq_none, decide_eq_true_eq] at fine
  exact ⟨program, parsed, fine.1.1, fine.1.2, fine.2⟩

end Cb
