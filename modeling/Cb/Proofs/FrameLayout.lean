import Cb.Proofs.Nodes
import Cb.Proofs.ParameterSlots
import Cb.Proofs.ProgramRules

/-! Where locals lie: each one right below those in scope at its declaration, whatever blocks and loops came
before. Variables carry the places of the locals that they name. -/

namespace Cb

structure Extent where
  start : Int
  stop : Int

def Extent.Apart (a b : Extent) : Prop := a.stop ≤ b.start ∨ b.stop ≤ a.start

namespace Declaration

def extents (entry : Declaration) : List Extent :=
  ⟨entry.offset, entry.offset + entry.ty.paddedSize⟩ ::
    match entry.array with
    | some storage => [⟨storage.offset, storage.offset + storage.reserved⟩]
    | none => []

structure LiesBelow (entry : Declaration) (locals : List Declaration) : Prop where
  offset : entry.offset = -(localsBytes locals + entry.bytes)
  storage : ∀ storage ∈ entry.array, storage.offset = -(localsBytes locals + storage.reserved) ∧ 0 < storage.length ∧
    storage.reserved = storage.length * entry.ty.deref.size + (storage.length * entry.ty.deref.size).tmod 2

end Declaration

structure AreLaidOut (locals : List Declaration) : Prop where
  apart : (locals.flatMap Declaration.extents).Pairwise Extent.Apart
  below : ∀ extent ∈ locals.flatMap Declaration.extents, extent.start < extent.stop ∧ extent.stop ≤ 0

namespace Declares

variable {frame : Frame} {locals : List Declaration} {entry : Declaration}

theorem liesBelow (new : Declares frame locals entry) : entry.LiesBelow locals := by
  refine ⟨new.offset, ?_⟩
  cases new with
  | scalar => exact nofun
  | array fresh isValue positive even =>
    rintro _ ⟨rfl⟩
    exact ⟨rfl, positive, even⟩

theorem lower_name (new : Declares frame locals entry) : lower entry.name = entry.name := by
  obtain ⟨_, ⟨word, spelled⟩, _⟩ := new.fresh
  rw [spelled, lower_lower]

theorem extents_within (new : Declares frame locals entry) :
    entry.extents.Pairwise Extent.Apart ∧ ∀ extent ∈ entry.extents,
      -(localsBytes locals + entry.bytes) ≤ extent.start ∧ extent.start < extent.stop ∧
        extent.stop ≤ -localsBytes locals := by
  have size (t : Ty) : (t.paddedSize : Int) = 2 := by rw [Ty.paddedSize_eq]; rfl
  cases new with
  | scalar fresh isValue initial =>
    refine ⟨List.pairwise_singleton _ _, fun extent member => ?_⟩
    cases List.mem_singleton.mp member
    simp only [Declaration.bytes, size]
    omega
  | @array name element length reserved fresh isValue positive even =>
    have room := element.reserved_pos positive even
    refine ⟨List.pairwise_pair.mpr (Or.inl ?_), fun extent member => ?_⟩
    · simp only [size]
      omega
    · simp only [Declaration.extents, List.mem_cons, List.not_mem_nil, or_false] at member
      rcases member with rfl | rfl <;> simp only [Declaration.bytes, size] <;> omega

end Declares

namespace Locals

variable {frame : Frame} {locals : List Declaration}

theorem lower_name (declared : Locals frame locals) (member : entry ∈ locals) :
    lower entry.name = entry.name := by
  induction declared with
  | nil => cases member
  | cons _ newest ih =>
    rcases List.mem_cons.mp member with rfl | older
    · exact newest.lower_name
    · exact ih older

theorem extents_within (declared : Locals frame locals) :
    ∀ extent ∈ locals.flatMap Declaration.extents,
      -localsBytes locals ≤ extent.start ∧ extent.start < extent.stop ∧ extent.stop ≤ 0 := by
  induction declared with
  | nil => simp
  | cons older newest ih =>
    intro extent member
    have positive := newest.bytes_pos
    have nonneg := older.bytes_nonneg
    rw [List.flatMap_cons, List.mem_append] at member
    rw [localsBytes_cons]
    rcases member with isNew | isOld
    · have := newest.extents_within.2 extent isNew
      omega
    · have := ih extent isOld
      omega

theorem laidOut (declared : Locals frame locals) : AreLaidOut locals := by
  refine ⟨?_, fun extent member => (declared.extents_within extent member).2⟩
  induction declared with
  | nil => exact .nil
  | cons older newest ih =>
    obtain ⟨own, within⟩ := newest.extents_within
    rw [List.flatMap_cons, List.pairwise_append]
    refine ⟨own, ih, fun new isNew old isOld => Or.inl ?_⟩
    have := within new isNew
    have := older.extents_within old isOld
    omega

theorem suffix (declared : Locals frame (newer ++ older)) : Locals frame older := by
  induction newer with
  | nil => exact declared
  | cons entry rest ih =>
    cases declared with
    | cons older _ => exact ih older

theorem findFrom_eq (declared : Locals frame locals) (member : entry ∈ locals) (above : List Entry) :
    Stack.findFrom entry.name above (frame.scope.grow locals).stack =
      some ⟨entry.name, entry.ty, entry.ty.paddedSize, entry.offset⟩ := by
  induction declared generalizing above with
  | nil => cases member
  | @cons older newest before new ih =>
    have stack : (frame.scope.grow (newest :: older)).stack = newest.slots ++ (frame.scope.grow older).stack := by
      simp [Scope.grow]
    rcases List.mem_cons.mp member with rfl | isOlder
    · have bytes := (Locals.cons before new).belowBase
      rw [stack, Declaration.slots, new.lower_name, List.cons_append] at bytes ⊢
      rw [Stack.findFrom_here new.fresh.1, Stack.offset, bytes, new.offset, localsBytes_cons]
      simp [Int.add_comm]
    · -- The name was free when the newest local got it.
      have other : entry.name ≠ newest.name := by
        intro same
        have free := new.fresh.2.2
        rw [Scope.findVariable?, new.lower_name, ← same, ih isOlder []] at free
        cases free
      have named : entry.name ≠ [] := (Stack.slot_of_findFrom (ih isOlder [])).1
      have skipped : ∀ slot ∈ newest.slots, slot.isFunctionMark = false ∧ ∀ ty size, slot ≠ .slot entry.name ty size := by
        intro slot isSlot
        refine ⟨newest.slots_inside slot isSlot, fun ty size same => ?_⟩
        subst same
        simp only [Declaration.slots, List.mem_cons, Entry.slot.injEq, new.lower_name] at isSlot
        rcases isSlot with ⟨sameName, _⟩ | isStorage
        · exact other sameName
        · split at isStorage
          · simp only [List.mem_singleton, Entry.slot.injEq] at isStorage
            exact named isStorage.1
          · cases isStorage
      rw [stack, Stack.findFrom_append above _ skipped]
      exact ih isOlder _

end Locals

structure LaysOutLocals (body : Stmt) : Prop where
  covers : ∀ node, (Node.stmt body).Contains node → ∃ inner, Stands [] [body] inner node
  placed : ∀ inner pos entry, Stands [] [body] inner (.stmt (.declare pos entry)) →
    entry.LiesBelow inner ∧ AreLaidOut (entry :: inner)
  named : ∀ newer entry older info name offset,
    Stands [] [body] (newer ++ entry :: older) (.expr (.var info name offset)) → lower name = lower entry.name →
      info.ty = entry.ty ∧ offset = entry.offset ∧ entry.LiesBelow older
  apart : ∀ inner node, Stands [] [body] inner node → AreLaidOut inner

/-- In an accepted body each local lies right below the ones in scope at its declaration, no two of them share a byte, and a
variable has the type and the place of the newest local of its name. -/
theorem locals_laid_out {env : Env} {program : Program} (parsed : (parse env).program = .ok program) {f : Function}
    (member : f ∈ program.functions) {body : Stmt} (implemented : f.body = some body) : LaysOutLocals body := by
  obtain ⟨_, frame, _, _, _, accepts⟩ := (parse_isTable parsed).accepted f member body implemented
  refine ⟨fun node inside => accepts.stands (by simp) inside, fun inner pos entry stands => ?_,
    fun newer entry older info name offset stands named => ?_,
    fun inner node stands => (accepts.admits .nil stands).1.laidOut⟩
  · obtain ⟨declared, new⟩ := accepts.admits .nil stands
    exact ⟨new.liesBelow, (Locals.cons declared new).laidOut⟩
  · obtain ⟨declared, typed⟩ := accepts.admits .nil stands
    obtain ⟨_, new⟩ : Locals frame older ∧ Declares frame older entry := by
      cases declared.suffix with
      | cons older new => exact ⟨older, new⟩
    cases typed with
    | var found =>
      obtain ⟨_, v, isFound, rfl, rfl⟩ := found
      rw [Scope.findVariable?, named, new.lower_name, declared.findFrom_eq (by simp)] at isFound
      cases isFound
      exact ⟨rfl, rfl, new.liesBelow⟩

def leftBlock : Env where
  source :=
    { lines := #["void main() \x7b int a = 3; \x7b byte b; b = 1; \x7d byte c[3]; c[0] = (byte) a; \x7d"]
      origins := #["left.cb"] }
  settings := {}

def Function.reusesBlock (f : Function) : Bool :=
  match f.body with
  | some (.block _ (_ :: .block _ _ _ :: .declare _ entry :: _) _) =>
    entry.offset = -8 && entry.array.map ArrayStorage.offset = some (-6)
  | _ => false

theorem locals_laid_out_leftBlock :
    ∃ program f body inner pos entry, (parse leftBlock).program = .ok program ∧ f ∈ program.functions ∧
      f.body = some body ∧ Stands [] [body] inner (.stmt (.declare pos entry)) ∧ entry.offset = -8 ∧
      entry.array.map ArrayStorage.offset = some (-6) ∧ LaysOutLocals body := by
  have accepted : (parse leftBlock).program.toOption.any (·.functions.any Function.reusesBlock) = true := by
    decide +kernel
  obtain ⟨program, parsed, hasArray⟩ := exists_of_any accepted
  obtain ⟨f, member, isArray⟩ := List.any_eq_true.mp hasArray
  rw [Function.reusesBlock] at isArray
  split at isArray
  · rename_i isBody
    simp only [Bool.and_eq_true, decide_eq_true_eq] at isArray
    exact ⟨program, f, _, _, _, _, parsed, member, isBody, .row (List.mem_singleton.mpr rfl) (.later (.later .here)),
      isArray.1, isArray.2, locals_laid_out parsed member isBody⟩
  · cases isArray

end Cb
