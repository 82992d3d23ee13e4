import Cb.Proofs.Layout
import Cb.Proofs.LowerCase

/-! Where a body finds its parameters: above the return address, unless one of them has a name that every
frame uses itself. -/

namespace Cb

def paramsBytes (params : List Param) : Int := (params.map fun param => (param.ty.paddedSize : Int)).sum

/-- The offset of a parameter from the base pointer: the saved base pointer, the return address and the
parameters after it lie below. -/
def Signature.slot (f : Signature) (k : Nat) : Int := 4 + paramsBytes (f.params.drop (k + 1))

theorem Param.sizes_nonneg (params : List Param) : ∀ entry ∈ params.map Param.slot, 0 ≤ entry.size := by
  intro entry member
  obtain ⟨param, _, rfl⟩ := List.mem_map.mp member
  exact Int.natCast_nonneg _

namespace Stack

theorem findFrom_append (above : List Entry) (rest : Stack)
    (other : ∀ entry ∈ front, entry.isFunctionMark = false ∧ ∀ ty size, entry ≠ .slot name ty size) :
    findFrom name above (front ++ rest) = findFrom name (front.reverse ++ above) rest := by
  induction front generalizing above with
  | nil => rfl
  | cons entry front ih =>
    have here := other entry (by simp)
    have later := ih (entry :: above) fun entry member => other entry (by simp [member])
    rw [List.reverse_cons, List.append_assoc, List.singleton_append, ← later, List.cons_append]
    cases entry with
    | functionMark => cases here.1
    | blockMark => rfl
    | slot slotName ty size =>
      rw [findFrom, if_neg]
      simp only [Bool.and_eq_true, decide_eq_true_eq, not_and]
      rintro _ rfl
      exact here.2 ty size rfl

theorem findFrom_here (named : name ≠ []) (above : List Entry) (ty : Ty) (size : Int) (rest : Stack) :
    findFrom name above (.slot name ty size :: rest) =
      some ⟨name, ty, size, offset above (.slot name ty size :: rest)⟩ := by
  simp [findFrom, named]

theorem bytes_params (params : List Param) : bytes (params.map Param.slot) = paramsBytes params := by
  induction params with
  | nil => rfl
  | cons param rest ih =>
    simp only [List.map_cons, bytes_cons, ih, paramsBytes, List.sum_cons]
    rfl

theorem toBase?_append (rest : List Entry) (free : ∀ entry ∈ front, entry.isSavedBase = false) :
    toBase? (front ++ rest) = (toBase? rest).map (· + bytes front) := by
  induction front with
  | nil => simp
  | cons entry front ih =>
    rw [List.cons_append, toBase?, free entry (by simp), ih fun other member => free other (by simp [member])]
    cases toBase? rest with
    | none => rfl
    | some n =>
      simp only [Bool.false_eq_true, ↓reduceIte, Option.map_some, bytes_cons]
      congr 1
      omega

theorem toBase?_le (rest : List Entry) (sizes : ∀ entry ∈ front, 0 ≤ entry.size)
    (taken : ∃ entry ∈ front, entry.isSavedBase = true) :
    ∃ n, toBase? (front ++ rest) = some n ∧ 0 ≤ n ∧ n ≤ bytes front := by
  induction front with
  | nil =>
    obtain ⟨_, member, _⟩ := taken
    cases member
  | cons entry front ih =>
    have here := sizes entry (by simp)
    have bounds := bytes_nonneg fun other member => sizes other (List.mem_cons_of_mem entry member)
    rw [List.cons_append, toBase?, bytes_cons]
    split
    · exact ⟨entry.size, rfl, here, by omega⟩
    · rename_i other
      obtain ⟨found, member, isBase⟩ := taken
      rcases List.mem_cons.mp member with rfl | later
      · exact absurd isBase other
      · obtain ⟨n, counted, bound⟩ := ih (fun entry member => sizes entry (by simp [member])) ⟨found, later, isBase⟩
        exact ⟨n + entry.size, by rw [counted]; rfl, by omega, by omega⟩

theorem belowBase?_bounds (sizes : ∀ entry ∈ entries, 0 ≤ entry.size) :
    ∀ n ∈ belowBase? entries, 0 ≤ n ∧ n ≤ bytes entries := by
  induction entries with
  | nil => exact nofun
  | cons entry rest ih =>
    have later := ih fun other member => sizes other (by simp [member])
    have positive := bytes_nonneg sizes
    intro n counted
    simp only [belowBase?] at counted
    split at counted
    · cases counted
    · split at counted
      · cases counted
        exact ⟨Int.le_refl 0, positive⟩
      · obtain ⟨m, isRest, rfl⟩ := Option.map_eq_some_iff.mp counted
        have here := sizes entry (by simp)
        have := later m isRest
        rw [bytes_cons]
        omega

theorem belowBase?_isSome (rest : Stack) (inside : ∀ entry ∈ front, entry.isFunctionMark = false)
    (taken : ∃ entry ∈ front, entry.isSavedBase = true) : (belowBase? (front ++ rest)).isSome = true := by
  induction front with
  | nil =>
    obtain ⟨_, member, _⟩ := taken
    cases member
  | cons entry front ih =>
    rw [List.cons_append, belowBase?, inside entry (by simp)]
    simp only [Bool.false_eq_true, ↓reduceIte]
    split
    · rfl
    · rename_i other
      obtain ⟨found, member, isBase⟩ := taken
      rcases List.mem_cons.mp member with rfl | later
      · exact absurd isBase other
      · rw [Option.isSome_map]
        exact ih (fun entry member => inside entry (by simp [member])) ⟨found, later, isBase⟩

end Stack

namespace Frame

variable {frame : Frame} {param : Param}

theorem lower_param (member : param ∈ frame.params) : lower param.name = param.name := by
  obtain ⟨_, word, spelled⟩ := frame.params_spelled param member
  rw [spelled, lower_lower]

theorem slot_of_param (member : param ∈ frame.params) : param.slot = .slot param.name param.ty param.ty.paddedSize := by
  rw [Param.slot, lower_param member]

theorem slot_mem (member : param ∈ frame.params) : .slot param.name param.ty param.ty.paddedSize ∈ frame.slots := by
  rw [← slot_of_param member]
  simp only [slots, List.mem_cons]
  exact .inr (.inr (List.mem_map_of_mem (List.mem_reverse.mpr member)))

theorem isSavedBase_slot (member : param ∈ frame.params) : param.slot.isSavedBase = decide (param.name = savedBaseName) := by
  rw [slot_of_param member]
  rfl

theorem slots_free {params : List Param} (known : ∀ param ∈ params, param ∈ frame.params)
    (visible : ∀ other ∈ frame.params, other.name ≠ savedBaseName) :
    Stack.AreLocal (params.map Param.slot) := by
  intro entry member
  obtain ⟨param, here, rfl⟩ := List.mem_map.mp member
  refine ⟨rfl, ?_⟩
  rw [isSavedBase_slot (known param here), decide_eq_false (visible param (known param here))]

theorem name_ne_of_after (split : frame.params = before ++ param :: after) (isAfter : later ∈ after) :
    later.name ≠ param.name := by
  have distinct := frame.params_distinct
  rw [split, List.map_append, List.map_cons, List.nodup_append, List.nodup_cons] at distinct
  intro same
  exact distinct.2.1.1 (same ▸ List.mem_map_of_mem isAfter)

end Frame

namespace Locals

variable {frame : Frame} {locals : List Declaration}

theorem slots_other (declared : Locals frame locals) (named : name ≠ []) (member : .slot name ty size ∈ frame.slots) :
    ∀ entry ∈ locals.flatMap Declaration.slots, ∀ ty size, entry ≠ .slot name ty size := by
  induction declared with
  | nil => exact nofun
  | cons _ newest ih =>
    intro entry isSlot otherTy otherSize same
    rw [List.flatMap_cons, List.mem_append] at isSlot
    rcases isSlot with isNew | isOld
    · subst same
      simp only [Declaration.slots, List.mem_cons, Entry.slot.injEq] at isNew
      rcases isNew with ⟨sameName, _, _⟩ | isStorage
      · exact newest.fresh.ne_slot named member sameName.symm
      · split at isStorage
        · simp only [List.mem_singleton, Entry.slot.injEq] at isStorage
          exact named isStorage.1
        · cases isStorage
    · exact ih entry isOld otherTy otherSize same

theorem findVariable?_eq (declared : Locals frame locals) (named : name ≠ [])
    (member : .slot name ty size ∈ frame.slots) (spelled : lower name = name) :
    (frame.scope.grow locals).findVariable? name =
      Stack.findFrom name (locals.flatMap Declaration.slots).reverse (frame.slots ++ [.functionMark]) := by
  have other (entry : Entry) (isSlot : entry ∈ locals.flatMap Declaration.slots) :
      entry.isFunctionMark = false ∧ ∀ ty size, entry ≠ .slot name ty size :=
    ⟨inside_of_slots locals entry isSlot, declared.slots_other named member entry isSlot⟩
  have passed := Stack.findFrom_append [] (frame.slots ++ [.functionMark]) other
  rw [List.append_nil] at passed
  rw [Scope.findVariable?, spelled, ← passed]
  exact congrArg _ (congrArg _ frame.scope_stack)

variable {before after : List Param} {param : Param} {v : Variable}

theorem found_savedBase (declared : Locals frame locals) (member : param ∈ frame.params) (isBase : param.name = savedBaseName)
    (found : (frame.scope.grow locals).findVariable? param.name = some v) : v.offset = 0 := by
  have named := (frame.params_spelled param member).1
  rw [declared.findVariable?_eq named (frame.slot_mem member) (frame.lower_param member), Frame.slots, isBase,
    List.cons_append, Stack.findFrom_here (by decide)] at found
  cases found
  simp [Stack.offset, Stack.belowBase?, Entry.isFunctionMark, Entry.isSavedBase]

theorem found_returnAddress (declared : Locals frame locals) (member : param ∈ frame.params)
    (isReturn : param.name = returnAddressName)
    (found : (frame.scope.grow locals).findVariable? param.name = some v) : v.offset ≤ 2 := by
  have named := (frame.params_spelled param member).1
  have other : ∀ entry ∈ [Entry.slot savedBaseName .int 2],
      entry.isFunctionMark = false ∧ ∀ ty size, entry ≠ .slot returnAddressName ty size := by
    simp [Entry.isFunctionMark, show savedBaseName ≠ returnAddressName by decide]
  have sizes : ∀ entry ∈ Entry.slot returnAddressName .int 2 :: (frame.params.reverse.map Param.slot ++ [.functionMark]),
      0 ≤ entry.size := by
    simp only [List.mem_cons, List.mem_append, List.not_mem_nil, or_false]
    rintro entry (rfl | isParam | rfl)
    · exact (by decide : (0 : Int) ≤ 2)
    · exact Param.sizes_nonneg _ entry isParam
    · exact Int.le_refl 0
  rw [declared.findVariable?_eq named (frame.slot_mem member) (frame.lower_param member), Frame.slots, isReturn,
    List.cons_append, ← List.singleton_append, Stack.findFrom_append _ _ other, List.cons_append,
    Stack.findFrom_here (by decide)] at found
  cases found
  simp only [Stack.offset]
  split
  · rename_i n counted
    have := Stack.belowBase?_bounds sizes n counted
    omega
  · simp [Stack.toBase?, Entry.isSavedBase, Entry.size]

theorem found_param (declared : Locals frame locals) (split : frame.params = before ++ param :: after)
    (notBase : param.name ≠ savedBaseName) (notReturn : param.name ≠ returnAddressName)
    (found : (frame.scope.grow locals).findVariable? param.name = some v) :
    v.ty = param.ty ∧ v.offset = Stack.offset
      (after.map Param.slot ++ .slot returnAddressName .int 2 :: .slot savedBaseName .int 2 ::
        (locals.flatMap Declaration.slots).reverse)
      (param.slot :: before.reverse.map Param.slot ++ [.functionMark]) := by
  have member : param ∈ frame.params := by simp [split]
  have named := (frame.params_spelled param member).1
  have other : ∀ entry ∈ Entry.slot savedBaseName .int 2 :: .slot returnAddressName .int 2 :: after.reverse.map Param.slot,
      entry.isFunctionMark = false ∧ ∀ ty size, entry ≠ .slot param.name ty size := by
    simp only [List.mem_cons, List.mem_map, List.mem_reverse]
    rintro entry (rfl | rfl | ⟨later, isAfter, rfl⟩)
    · exact ⟨rfl, fun _ _ same => notBase (Entry.slot.inj same).1.symm⟩
    · exact ⟨rfl, fun _ _ same => notReturn (Entry.slot.inj same).1.symm⟩
    · refine ⟨rfl, fun _ _ same => ?_⟩
      have isParam : later ∈ frame.params := by simp [split, isAfter]
      rw [Frame.slot_of_param isParam] at same
      exact Frame.name_ne_of_after split isAfter (Entry.slot.inj same).1
  have stack : frame.slots ++ [.functionMark] =
      (.slot savedBaseName .int 2 :: .slot returnAddressName .int 2 :: after.reverse.map Param.slot)
        ++ .slot param.name param.ty param.ty.paddedSize :: (before.reverse.map Param.slot ++ [.functionMark]) := by
    rw [Frame.slots, split, ← Frame.slot_of_param member]
    simp
  rw [declared.findVariable?_eq named (frame.slot_mem member) (frame.lower_param member), stack,
    Stack.findFrom_append _ _ other, Stack.findFrom_here named] at found
  cases found
  refine ⟨rfl, ?_⟩
  rw [Frame.slot_of_param member]
  simp

theorem offset_param (split : frame.params = before ++ param :: after)
    (visible : ∀ other ∈ frame.params, other.name ≠ savedBaseName) (rest : List Entry) :
    Stack.offset (after.map Param.slot ++ .slot returnAddressName .int 2 :: .slot savedBaseName .int 2 :: rest)
      (param.slot :: before.reverse.map Param.slot ++ [.functionMark]) = 4 + paramsBytes after := by
  have older : Stack.AreLocal ((param :: before.reverse).map Param.slot) :=
    Frame.slots_free (fun other member => by
      rcases List.mem_cons.mp member with rfl | older
      · simp [split]
      · simp [split, List.mem_reverse.mp older]) visible
  have newer : Stack.AreLocal (after.map Param.slot) := Frame.slots_free (fun other member => by simp [split, member]) visible
  have below : Stack.belowBase? ((param :: before.reverse).map Param.slot ++ [.functionMark]) = none := by
    rw [Stack.belowBase?_append older]
    rfl
  have counted : Stack.toBase? (.slot returnAddressName .int 2 :: .slot savedBaseName .int 2 :: rest) = some 4 := by
    simp [Stack.toBase?, Entry.isSavedBase, Entry.size, show returnAddressName ≠ savedBaseName by decide]
  rw [Stack.offset, ← List.map_cons, below, Stack.toBase?_append _ fun entry member => (newer entry member).2,
    Stack.bytes_params, counted]
  rfl

theorem offset_param_lt (split : frame.params = before ++ param :: after) (notBase : param.name ≠ savedBaseName)
    (hidden : ∃ other ∈ frame.params, other.name = savedBaseName) (rest : List Entry) :
    Stack.offset (after.map Param.slot ++ rest) (param.slot :: before.reverse.map Param.slot ++ [.functionMark]) <
      4 + paramsBytes after := by
  have sizes := Param.sizes_nonneg after
  have positive := Stack.bytes_nonneg sizes
  rw [Stack.bytes_params] at positive
  simp only [Stack.offset]
  split
  · rename_i n counted
    have olderSizes : ∀ entry ∈ (param :: before.reverse).map Param.slot ++ [.functionMark], 0 ≤ entry.size := by
      intro entry isEntry
      rcases List.mem_append.mp isEntry with isParam | isMark
      · exact Param.sizes_nonneg _ entry isParam
      · rw [List.mem_singleton.mp isMark]
        exact Int.le_refl 0
    have := Stack.belowBase?_bounds olderSizes n counted
    omega
  · rename_i none
    obtain ⟨other, member, isBase⟩ := hidden
    have slotIsBase : other.slot.isSavedBase = true := by
      rw [Frame.isSavedBase_slot member, decide_eq_true isBase]
    have taken : ∃ entry ∈ after.map Param.slot, entry.isSavedBase = true := by
      rw [split, List.mem_append, List.mem_cons] at member
      rcases member with isOlder | rfl | isNewer
      · have inside : ∀ entry ∈ (param :: before.reverse).map Param.slot, entry.isFunctionMark = false := by
          intro entry isEntry
          obtain ⟨_, _, rfl⟩ := List.mem_map.mp isEntry
          rfl
        have some := Stack.belowBase?_isSome [.functionMark] inside
          ⟨other.slot, List.mem_map_of_mem (by simp [isOlder]), slotIsBase⟩
        rw [List.map_cons, none] at some
        cases some
      · exact absurd isBase notBase
      · exact ⟨other.slot, List.mem_map_of_mem isNewer, slotIsBase⟩
    obtain ⟨n, counted, _, bound⟩ := Stack.toBase?_le rest sizes taken
    rw [Stack.bytes_params] at bound
    rw [counted, Option.getD_some]
    omega

theorem found_param_iff (declared : Locals frame locals) (split : frame.params = before ++ param :: after)
    (found : (frame.scope.grow locals).findVariable? param.name = some v) :
    v.ty = param.ty ∧ v.offset = 4 + paramsBytes after ↔
      param.name ≠ returnAddressName ∧ ∀ other ∈ frame.params, other.name ≠ savedBaseName := by
  have member : param ∈ frame.params := by simp [split]
  have positive : 0 ≤ paramsBytes after := by
    rw [← Stack.bytes_params]
    exact Stack.bytes_nonneg (Param.sizes_nonneg after)
  by_cases isBase : param.name = savedBaseName
  · have := declared.found_savedBase member isBase found
    refine ⟨fun right => by omega, fun clear => absurd isBase (clear.2 param member)⟩
  · by_cases isReturn : param.name = returnAddressName
    · have := declared.found_returnAddress member isReturn found
      exact ⟨fun right => by omega, fun clear => absurd isReturn clear.1⟩
    · obtain ⟨sameTy, sameOffset⟩ := declared.found_param split isBase isReturn found
      by_cases hidden : ∃ other ∈ frame.params, other.name = savedBaseName
      · have := offset_param_lt split isBase hidden (.slot returnAddressName .int 2 :: .slot savedBaseName .int 2 ::
          (locals.flatMap Declaration.slots).reverse)
        refine ⟨fun right => by omega, fun clear => ?_⟩
        obtain ⟨other, there, sameName⟩ := hidden
        exact absurd sameName (clear.2 other there)
      · have visible : ∀ other ∈ frame.params, other.name ≠ savedBaseName := fun other there same =>
          hidden ⟨other, there, same⟩
        exact ⟨fun _ => ⟨isReturn, visible⟩, fun _ => ⟨sameTy, sameOffset.trans (offset_param split visible _)⟩⟩

end Locals

end Cb
