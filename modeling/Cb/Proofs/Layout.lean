import Cb.Proofs.Statics

/-! Where a frame keeps its variables. Marks between the slots do not count. -/

namespace Cb

theorem Ty.paddedSize_eq (t : Ty) : t.paddedSize = 2 := by
  simp only [paddedSize, size]
  split <;> rfl

theorem Ty.padded (t : Ty) : (t.size : Int) + (t.size : Int).tmod 2 = t.paddedSize := by
  simp only [paddedSize, size]
  split <;> rfl

def Param.slot (param : Param) : Entry := .slot (lower param.name) param.ty param.ty.paddedSize

theorem Rule.defineParams_eq (s : Scope) (params : List Param) :
    defineParams s params = { s with stack := params.reverse.map Param.slot ++ s.stack } := by
  induction params generalizing s with
  | nil => rfl
  | cons param rest ih =>
    have unfolded : defineParams s (param :: rest) = defineParams (s.defineVariable param.name param.ty).2 rest := rfl
    rw [unfolded, ih]
    simp only [Scope.defineVariable, Scope.define, Scope.push, Ty.padded, List.reverse_cons, List.map_append,
      List.append_assoc, List.map_cons, List.map_nil, List.cons_append, List.nil_append, Param.slot]

namespace Frame

variable (frame : Frame)

@[simp] theorem scope_types : frame.scope.types = Ty.builtins := by
  simp only [scope, Rule.defineParams_eq, Scope.enterFrame, Scope.push]

@[simp] theorem scope_functions : frame.scope.functions = frame.functions := by
  simp only [scope, Rule.defineParams_eq, Scope.enterFrame, Scope.push]

theorem scope_stack : frame.scope.stack = .slot savedBaseName .int 2 :: .slot returnAddressName .int 2 ::
    (frame.params.reverse.map Param.slot ++ [.functionMark]) := by
  simp only [scope, Rule.defineParams_eq, Scope.enterFrame, Scope.push]

def slots : Stack :=
  .slot savedBaseName .int 2 :: .slot returnAddressName .int 2 :: frame.params.reverse.map Param.slot

theorem slots_inside : ∀ entry ∈ frame.slots, entry.isFunctionMark = false := by
  intro entry member
  simp only [slots, List.mem_cons, List.mem_map] at member
  rcases member with rfl | rfl | ⟨param, _, rfl⟩ <;> rfl

end Frame

namespace Stack

def unmarked (entries : Stack) : Stack := entries.filter (· ≠ .blockMark)

@[simp] theorem unmarked_nil : unmarked [] = [] := rfl

@[simp] theorem unmarked_mark (rest : Stack) : unmarked (.blockMark :: rest) = unmarked rest := by
  simp [unmarked]

@[simp] theorem unmarked_slot (name : Bytes) (ty : Ty) (size : Int) (rest : Stack) :
    unmarked (.slot name ty size :: rest) = .slot name ty size :: unmarked rest := by
  simp [unmarked]

@[simp] theorem unmarked_functionMark (rest : Stack) :
    unmarked (.functionMark :: rest) = .functionMark :: unmarked rest := by
  simp [unmarked]

@[simp] theorem unmarked_append (first second : Stack) :
    unmarked (first ++ second) = unmarked first ++ unmarked second := by
  simp [unmarked]

@[simp] theorem bytes_nil : bytes [] = 0 := rfl

@[simp] theorem bytes_cons (entry : Entry) (rest : Stack) : bytes (entry :: rest) = entry.size + bytes rest := rfl

@[simp] theorem bytes_append (first second : Stack) : bytes (first ++ second) = bytes first + bytes second := by
  induction first with
  | nil => simp
  | cons entry rest ih =>
    simp only [List.cons_append, bytes_cons, ih]
    omega

theorem bytes_nonneg (sizes : ∀ entry ∈ entries, 0 ≤ entry.size) : 0 ≤ bytes entries := by
  induction entries with
  | nil => exact Int.le_refl 0
  | cons entry rest ih =>
    have here := sizes entry (by simp)
    have later := ih fun other member => sizes other (by simp [member])
    rw [bytes_cons]
    omega

theorem bytes_unmarked (entries : Stack) : bytes (unmarked entries) = bytes entries := by
  induction entries with
  | nil => rfl
  | cons entry rest ih => cases entry <;> simp [ih, Entry.size]

theorem belowBase?_unmarked (entries : Stack) : belowBase? (unmarked entries) = belowBase? entries := by
  induction entries with
  | nil => rfl
  | cons entry rest ih =>
    cases entry <;> simp [belowBase?, ih, Entry.isFunctionMark, Entry.isSavedBase, Entry.size]

theorem toBase?_unmarked (entries : List Entry) : toBase? (unmarked entries) = toBase? entries := by
  induction entries with
  | nil => rfl
  | cons entry rest ih => cases entry <;> simp [toBase?, ih, Entry.isSavedBase, Entry.size]

theorem offset_unmarked (above : List Entry) (here : Stack) :
    offset (unmarked above) (unmarked here) = offset above here := by
  simp only [offset, belowBase?_unmarked, toBase?_unmarked]

theorem findFrom_unmarked (name : Bytes) (above : List Entry) (entries : Stack) :
    findFrom name (unmarked above) (unmarked entries) = findFrom name above entries := by
  induction entries generalizing above with
  | nil => rfl
  | cons entry rest ih =>
    cases entry with
    | functionMark => simp [findFrom]
    | blockMark =>
      rw [unmarked_mark, findFrom, ← ih, unmarked_mark]
    | slot slotName ty size =>
      have same := offset_unmarked above (.slot slotName ty size :: rest)
      rw [unmarked_slot] at same
      rw [unmarked_slot, findFrom, findFrom, same, ← unmarked_slot, ih]

theorem localBytes_unmarked (entries : Stack) : localBytes (unmarked entries) = localBytes entries := by
  induction entries with
  | nil => rfl
  | cons entry rest ih =>
    cases entry <;> simp [localBytes, ih, Entry.isFunctionMark, Entry.isSavedBase, Entry.size]

def AreLocal (entries : Stack) : Prop :=
  ∀ entry ∈ entries, entry.isFunctionMark = false ∧ entry.isSavedBase = false

variable {above : Stack}

theorem belowBase?_append (plain : AreLocal above) :
    belowBase? (above ++ rest) = (belowBase? rest).map (· + bytes above) := by
  induction above with
  | nil => simp
  | cons entry above ih =>
    have here := plain entry (by simp)
    rw [List.cons_append, belowBase?, ih fun other member => plain other (by simp [member])]
    simp only [here.1, here.2, Bool.false_eq_true, ↓reduceIte, Option.map_map, bytes_cons]
    congr 1
    funext count
    simp only [Function.comp]
    omega

theorem localBytes_append (plain : AreLocal above) :
    localBytes (above ++ rest) = bytes above + localBytes rest := by
  induction above with
  | nil => simp
  | cons entry above ih =>
    have here := plain entry (by simp)
    rw [List.cons_append, localBytes, ih fun other member => plain other (by simp [member])]
    simp only [here.1, here.2, Bool.or_self, Bool.false_eq_true, ↓reduceIte, bytes_cons]
    omega

theorem exit_append (rest : Stack) (free : ∀ entry ∈ above, entry ≠ mark) :
    exit mark (above ++ mark :: rest) = (bytes above, rest) := by
  induction above with
  | nil => simp [exit]
  | cons entry above ih =>
    have other := free entry (by simp)
    rw [List.cons_append, exit, if_neg other, ih fun later member => free later (by simp [member])]
    simp only [bytes_cons, Int.add_comm]

theorem findFrom_isSome (above : List Entry) (named : name ≠ [])
    (inside : ∀ entry ∈ before, entry.isFunctionMark = false) :
    (findFrom name above (before ++ .slot name ty size :: after)).isSome = true := by
  induction before generalizing above with
  | nil => simp [findFrom, named]
  | cons entry rest ih =>
    have later := fun above => ih above fun other member => inside other (by simp [member])
    cases entry with
    | functionMark => exact absurd (inside .functionMark (by simp)) (by decide)
    | blockMark => exact later _
    | slot slotName slotTy slotSize =>
      simp only [List.cons_append, findFrom]
      split
      · rfl
      · exact later _

theorem split_of_findFrom (found : findFrom name above entries = some v) :
    v.name ≠ [] ∧ v.name = name ∧ ∃ before after, entries = before ++ .slot v.name v.ty v.size :: after ∧
      v.offset = offset (before.reverse ++ above) (.slot v.name v.ty v.size :: after) := by
  induction entries generalizing above with
  | nil => cases found
  | cons entry rest ih =>
    cases entry with
    | functionMark => cases found
    | blockMark =>
      obtain ⟨named, same, before, after, rfl, place⟩ := ih found
      exact ⟨named, same, .blockMark :: before, after, rfl, by simpa using place⟩
    | slot slotName ty size =>
      simp only [findFrom] at found
      split at found
      · rename_i here
        cases found
        simp only [Bool.and_eq_true, decide_eq_true_eq] at here
        exact ⟨here.1, here.2, [], rest, rfl, rfl⟩
      · obtain ⟨named, same, before, after, rfl, place⟩ := ih found
        exact ⟨named, same, .slot slotName ty size :: before, after, rfl, by simpa using place⟩

theorem slot_of_findFrom (found : findFrom name above entries = some v) :
    v.name ≠ [] ∧ v.name = name ∧ .slot v.name v.ty v.size ∈ entries := by
  obtain ⟨named, same, before, after, rfl, _⟩ := split_of_findFrom found
  exact ⟨named, same, by simp⟩

theorem findFrom_nil (above : List Entry) (entries : Stack) : findFrom [] above entries = none := by
  refine Option.eq_none_iff_forall_ne_some.mpr fun v found => ?_
  obtain ⟨named, same, _⟩ := slot_of_findFrom found
  exact named same

end Stack

namespace Declaration

theorem bytes_slots (entry : Declaration) : Stack.bytes entry.slots = entry.bytes := by
  simp only [slots, bytes]
  split <;> simp [Entry.size]

theorem unmarked_slots (entry : Declaration) : Stack.unmarked entry.slots = entry.slots := by
  simp only [slots]
  split <;> simp

theorem slots_inside (entry : Declaration) : ∀ slot ∈ entry.slots, slot.isFunctionMark = false := by
  intro slot member
  simp only [slots, List.mem_cons] at member
  rcases member with rfl | member
  · rfl
  · split at member
    · rw [List.mem_singleton.mp member]
      rfl
    · cases member

end Declaration

@[simp] theorem localsBytes_nil : localsBytes [] = 0 := rfl

@[simp] theorem localsBytes_cons (entry : Declaration) (locals : List Declaration) :
    localsBytes (entry :: locals) = entry.bytes + localsBytes locals := by
  simp [localsBytes]

@[simp] theorem localsBytes_append (first second : List Declaration) :
    localsBytes (first ++ second) = localsBytes first + localsBytes second := by
  simp [localsBytes]

theorem bytes_flatMap_slots (locals : List Declaration) :
    Stack.bytes (locals.flatMap Declaration.slots) = localsBytes locals := by
  induction locals with
  | nil => rfl
  | cons entry rest ih => rw [List.flatMap_cons, Stack.bytes_append, ih, entry.bytes_slots, localsBytes_cons]

theorem unmarked_flatMap_slots (locals : List Declaration) :
    Stack.unmarked (locals.flatMap Declaration.slots) = locals.flatMap Declaration.slots := by
  induction locals with
  | nil => rfl
  | cons entry rest ih => rw [List.flatMap_cons, Stack.unmarked_append, ih, entry.unmarked_slots]

theorem ne_blockMark_of_slots (locals : List Declaration) :
    ∀ entry ∈ locals.flatMap Declaration.slots, entry ≠ .blockMark := by
  intro entry member
  rw [← unmarked_flatMap_slots, Stack.unmarked, List.mem_filter] at member
  simpa using member.2

@[simp] theorem Stmt.declared_singleton (s : Stmt) : declared [s] = s.declares := rfl

namespace Scope

@[simp] theorem grow_nil (s : Scope) : s.grow [] = s := rfl

theorem grow_append (s : Scope) (newer older : List Declaration) : s.grow (newer ++ older) = (s.grow older).grow newer := by
  simp only [grow, List.flatMap_append, List.append_assoc]

theorem bytesSince_grow (s : Scope) (locals : List Declaration) :
    (s.grow locals).bytesSince s.height = localsBytes locals := by
  simp [bytesSince, Stack.bytesSince, height, grow, bytes_flatMap_slots]

end Scope

theorem inside_of_slots (locals : List Declaration) :
    ∀ entry ∈ locals.flatMap Declaration.slots, entry.isFunctionMark = false := by
  intro entry member
  obtain ⟨d, _, isSlot⟩ := List.mem_flatMap.mp member
  exact d.slots_inside entry isSlot

variable {frame : Frame}

theorem Frame.IsFresh.ne_slot (fresh : frame.IsFresh locals name) (named : taken ≠ [])
    (member : .slot taken ty size ∈ frame.slots) :
    lower name ≠ taken := by
  rintro rfl
  obtain ⟨before, after, split⟩ := List.append_of_mem member
  have inside : ∀ entry ∈ locals.flatMap Declaration.slots ++ before, entry.isFunctionMark = false := by
    intro entry isEntry
    rcases List.mem_append.mp isEntry with isLocal | isSlot
    · exact inside_of_slots locals entry isLocal
    · exact frame.slots_inside entry (by rw [split]; simp [isSlot])
  have missing := fresh.2.2
  have stack : (frame.scope.grow locals).stack =
      (locals.flatMap Declaration.slots ++ before) ++ .slot (lower name) ty size :: (after ++ [.functionMark]) := by
    have shape : frame.scope.stack = frame.slots ++ [.functionMark] := frame.scope_stack
    rw [Scope.grow, shape, split]
    simp
  rw [Scope.findVariable?, stack] at missing
  exact Option.isSome_iff_ne_none.mp (Stack.findFrom_isSome [] named inside) missing

theorem Frame.IsFresh.ne_savedBase (fresh : frame.IsFresh locals name) :
    lower name ≠ savedBaseName :=
  fresh.ne_slot (by decide) List.mem_cons_self

theorem Ty.reserved_pos (element : Ty) {length reserved : Int} (positive : 0 < length)
    (even : reserved = length * element.size + (length * element.size).tmod 2) : 0 < reserved := by
  have sized : 0 < element.size := by
    simp only [Ty.size]
    split <;> decide
  have filled : 0 < length * element.size := Int.mul_pos positive (by omega)
  have padding := Int.tmod_nonneg 2 (Int.le_of_lt filled)
  omega

namespace Declares

variable {frame : Frame} {locals : List Declaration} {entry : Declaration}

theorem fresh (new : Declares frame locals entry) : frame.IsFresh locals entry.name := by
  cases new with
  | scalar fresh => exact fresh
  | array fresh => exact fresh

theorem isValue (new : Declares frame locals entry) : entry.ty.IsValue := by
  cases new with
  | scalar _ isValue => exact isValue
  | array _ isValue => exact Ty.isValue_of_isPointer isValue.1 (by simp [Ty.isPointer, Ty.ref])

theorem offset (new : Declares frame locals entry) : entry.offset = -(localsBytes locals + entry.bytes) := by
  cases new with
  | scalar => simp [Declaration.bytes]
  | array =>
    simp only [Declaration.bytes]
    omega

theorem bytes_pos (new : Declares frame locals entry) : 0 < entry.bytes := by
  cases new with
  | scalar => simp [Declaration.bytes, Ty.paddedSize_eq]
  | @array name element length reserved fresh isValue positive even =>
    have room := element.reserved_pos positive even
    simp only [Declaration.bytes, Ty.paddedSize_eq]
    omega

theorem slots_local (new : Declares frame locals entry) : Stack.AreLocal entry.slots := by
  intro slot member
  refine ⟨entry.slots_inside slot member, ?_⟩
  simp only [Declaration.slots, List.mem_cons] at member
  rcases member with rfl | isStorage
  · simpa [Entry.isSavedBase] using new.fresh.ne_savedBase
  · split at isStorage
    · rw [List.mem_singleton.mp isStorage]
      exact decide_eq_false (show [] ≠ savedBaseName by decide)
    · cases isStorage

end Declares

namespace Locals

variable {frame : Frame} {locals : List Declaration}

theorem bytes_nonneg (declared : Locals frame locals) : 0 ≤ localsBytes locals := by
  induction declared with
  | nil => exact Int.le_refl 0
  | cons _ newest ih =>
    have positive := newest.bytes_pos
    rw [localsBytes_cons]
    omega

theorem newer_nonneg (declared : Locals frame (newer ++ older)) :
    0 ≤ localsBytes newer := by
  induction newer with
  | nil => exact Int.le_refl 0
  | cons entry rest ih =>
    cases declared with
    | cons older newest =>
      have := ih older
      have := newest.bytes_pos
      rw [localsBytes_cons]
      omega

theorem slots_local (declared : Locals frame locals) : Stack.AreLocal (locals.flatMap Declaration.slots) := by
  induction declared with
  | nil => exact nofun
  | cons _ newest ih =>
    intro slot member
    rw [List.flatMap_cons, List.mem_append] at member
    rcases member with isNew | isOld
    · exact newest.slots_local slot isNew
    · exact ih slot isOld

theorem belowBase (declared : Locals frame locals) :
    Stack.belowBase? (frame.scope.grow locals).stack = some (localsBytes locals) := by
  change Stack.belowBase? (_ ++ frame.scope.stack) = _
  rw [Stack.belowBase?_append declared.slots_local, frame.scope_stack, bytes_flatMap_slots]
  simp [Stack.belowBase?, Entry.isFunctionMark, Entry.isSavedBase]

theorem localBytes (declared : Locals frame locals) : (frame.scope.grow locals).localBytes = localsBytes locals := by
  change Stack.localBytes (_ ++ frame.scope.stack) = _
  rw [Stack.localBytes_append declared.slots_local, frame.scope_stack, bytes_flatMap_slots]
  simp [Stack.localBytes, Entry.isSavedBase]

theorem isValue (declared : Locals frame locals) (member : entry ∈ locals) : entry.ty.IsValue := by
  induction declared with
  | nil => cases member
  | cons _ newest ih =>
    rcases List.mem_cons.mp member with rfl | older
    · exact newest.isValue
    · exact ih older

theorem found_isValue (declared : Locals frame locals) (found : (frame.scope.grow locals).findVariable? name = some v) :
    v.ty.IsValue := by
  obtain ⟨named, _, member⟩ := Stack.slot_of_findFrom found
  rw [Scope.grow, frame.scope_stack, List.mem_append, List.mem_cons, List.mem_cons, List.mem_append] at member
  rcases member with isLocal | isBase | isReturn | isParam | isMark
  · obtain ⟨entry, here, isSlot⟩ := List.mem_flatMap.mp isLocal
    simp only [Declaration.slots, List.mem_cons, Entry.slot.injEq] at isSlot
    rcases isSlot with ⟨_, same, _⟩ | isStorage
    · exact same ▸ declared.isValue here
    · split at isStorage
      · simp only [List.mem_singleton, Entry.slot.injEq] at isStorage
        exact absurd isStorage.1 named
      · cases isStorage
  · rw [(Entry.slot.inj isBase).2.1]
    decide
  · rw [(Entry.slot.inj isReturn).2.1]
    decide
  · obtain ⟨param, here, isSlot⟩ := List.mem_map.mp isParam
    rw [List.mem_reverse] at here
    rw [← (Entry.slot.inj isSlot).2.1]
    exact frame.params_value param here
  · simp at isMark

end Locals

theorem Accepts.locals {locals : List Declaration} (accepts : Accepts frame loop locals body)
    (older : Locals frame locals) :
    Locals frame (Stmt.declared body ++ locals) := by
  induction accepts with
  | cons _ _ first others =>
    have extended := others (first older)
    rwa [Stmt.declared, List.append_assoc]
  | declare _ new => exact .cons older new
  | nil | breakLoop | continueLoop | assembly | branch | branchElse | whileLoop | forLoop | ret | block | evaluate =>
    exact older

end Cb
