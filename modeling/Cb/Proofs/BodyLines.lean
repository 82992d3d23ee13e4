import Cb.Proofs.EmittedParts
import Cb.Proofs.Nodes
import Cb.Proofs.OperandWidths
import Cb.Proofs.StackFlow
import Mathlib.Data.List.Nodup

/-! The lines of accepted statements under any settings: no error is met, instructions are sound and keep the limits, the
labels of a construct have a number of their own, and jumps stay in the body or leave a loop, but never lead to the end of
a branch whose parts both terminate. -/

namespace Cb

namespace Item

theorem target?_of_plain (plain : i.isPlain = true) : (Item.instr i).target? = none := by
  cases i <;> first | rfl | cases plain

def label? : Item → Option Label
  | .label l => some l
  | _ => none

theorem eq_of_label? {item : Item} (defines : item.label? = some l) : item = .label l := by
  cases item with
  | label other => exact congrArg Item.label (Option.some.inj defines)
  | instr | comment | procedure | endProcedure | verbatim | blank => cases defines

def isOrderly (raw : Bool) (paramBytes : Nat) : Item → Bool
  | .instr (.ret bytes) => bytes = paramBytes
  | .instr i => i.isSound
  | .label _ | .comment _ => true
  | .verbatim _ => raw
  | .procedure _ | .endProcedure _ | .blank => false

end Item

def definedLabels (lines : List Line) : List Label := lines.filterMap (·.item.label?)

def jumpTargets (lines : List Line) : List Label := lines.filterMap (·.item.target?)

@[simp] theorem definedLabels_append (first second : List Line) :
    definedLabels (first ++ second) = definedLabels first ++ definedLabels second := List.filterMap_append

@[simp] theorem jumpTargets_append (first second : List Line) :
    jumpTargets (first ++ second) = jumpTargets first ++ jumpTargets second := List.filterMap_append

@[simp] theorem definedLabels_label (ctx : Lower.Context) (l : Label) (rest : List Line) :
    definedLabels (ctx.label l :: rest) = l :: definedLabels rest := rfl

@[simp] theorem definedLabels_code (ctx : Lower.Context) (instrs : List Instr) : definedLabels (ctx.code instrs) = [] := by
  induction instrs with
  | nil => rfl
  | cons i rest ih => exact ih

def Label.between (low high : Nat) (l : Label) : Nat := if low < l.number ∧ l.number ≤ high then 1 else 0

namespace Label

theorem between_add (first : low ≤ middle) (second : middle ≤ high) (l : Label) :
    between low middle l + between middle high l = between low high l := by
  simp only [between]
  split <;> split <;> split <;> omega

theorem between_own (grows : low + 1 ≤ high) {roles : List LabelRole} (distinct : roles.Nodup) (l : Label) :
    (roles.map (Label.mk (low + 1))).count l + between (low + 1) high l ≤ between low high l := by
  -- The own labels and those inside never share a number, so only one of the summands counts.
  by_cases own : l.number = low + 1
  · have once : (roles.map (Label.mk (low + 1))).count l ≤ 1 := by
      refine List.nodup_iff_count_le_one.mp (distinct.map fun one other same => ?_) l
      exact (Label.mk.injEq .. ▸ same).2
    have none : between (low + 1) high l = 0 := if_neg (by omega)
    have allowed : between low high l = 1 := if_pos (by omega)
    omega
  · have none : (roles.map (Label.mk (low + 1))).count l = 0 := by
      refine List.count_eq_zero.mpr fun member => own ?_
      obtain ⟨role, _, rfl⟩ := List.mem_map.mp member
      rfl
    rw [none, between, between]
    split <;> split <;> omega

theorem between_le_one (low high : Nat) (l : Label) : between low high l ≤ 1 := by
  rw [between]
  split <;> decide

theorem between_pos (positive : 0 < between low high l) : low < l.number ∧ l.number ≤ high := by
  rw [between] at positive
  split at positive
  · assumption
  · cases positive

end Label

namespace Limits

def any (raw : Bool) : Limits := ⟨raw, fun _ => True, fun _ => True⟩

def Allows (p : Limits) (bytes : Int) : Prop := ∀ n : Nat, n ≤ bytes → p.numbers n

variable {p : Limits} {bytes : Int}

theorem Allows.mono (allows : p.Allows bytes) (less : fewer ≤ bytes) : p.Allows fewer :=
  fun n within => allows n (Int.le_trans within less)

theorem Allows.natAbs (allows : p.Allows bytes) (nonneg : 0 ≤ bytes) : p.numbers bytes.natAbs :=
  allows _ (Int.le_of_eq (Int.natAbs_of_nonneg nonneg))

theorem covers_any (raw : Bool) (known : Vocabulary) : (any raw).Covers known := ⟨fun _ _ => trivial, fun _ => trivial⟩

end Limits

structure Line.Obeys (p : Limits) (paramBytes indent : Nat) (line : Line) : Prop where
  orderly : line.item.isOrderly p.raw paramBytes = true
  deep : indent ≤ line.indent
  formed : ∀ i, line.item = .instr i → i.IsFormed p

abbrev Lower.Context.Keeps (ctx : Context) (p : Limits) : Line → Prop := Line.Obeys p ctx.paramBytes ctx.indent

structure Tidy (good : Line → Prop) (exits : List Label) (dead bound : Label → Nat) (lines : List Line) : Prop where
  obeys : ∀ line ∈ lines, good line
  unique : ∀ l, (definedLabels lines).count l ≤ bound l
  defined : ∀ l, dead l ≤ (definedLabels lines).count l
  closed : ∀ l ∈ jumpTargets lines, dead l < (definedLabels lines).count l ∨ l ∈ exits

abbrev Unlabelled (good : Line → Prop) (exits : List Label) (lines : List Line) : Prop :=
  Tidy good exits (fun _ => 0) (fun _ => 0) lines

namespace Tidy

variable {good : Line → Prop} {exits : List Label} {dead bound : Label → Nat} {first second lines : List Line}

theorem nil : Unlabelled good exits [] := ⟨by simp, by simp [definedLabels], fun _ => Nat.zero_le _, by simp [jumpTargets]⟩

theorem append (head : Tidy good exits deadEarly early first) (tail : Tidy good exits deadLate late second) :
    Tidy good exits (fun l => deadEarly l + deadLate l) (fun l => early l + late l) (first ++ second) := by
  refine ⟨List.forall_mem_append.mpr ⟨head.obeys, tail.obeys⟩, fun l => ?_, fun l => ?_, fun l member => ?_⟩ <;>
    rw [definedLabels_append, List.count_append]
  · exact Nat.add_le_add (head.unique l) (tail.unique l)
  · exact Nat.add_le_add (head.defined l) (tail.defined l)
  · rw [jumpTargets_append] at member
    rcases List.mem_append.mp member with isEarly | isLate
    · exact (head.closed l isEarly).imp_left fun live => Nat.add_lt_add_of_lt_of_le live (tail.defined l)
    · exact (tail.closed l isLate).imp_left fun live => Nat.add_lt_add_of_le_of_lt (head.defined l) live

theorem mono (tidy : Tidy good exits dead bound lines) (implies : ∀ line, good line → fair line) :
    Tidy fair exits dead bound lines :=
  ⟨fun line member => implies line (tidy.obeys line member), tidy.unique, tidy.defined, tidy.closed⟩

theorem outdent {p : Limits} (tidy : Tidy (Line.Obeys p paramBytes indent) exits dead bound lines) (low : margin ≤ indent) :
    Tidy (Line.Obeys p paramBytes margin) exits dead bound lines :=
  tidy.mono fun _ obeys => ⟨obeys.orderly, Nat.le_trans low obeys.deep, obeys.formed⟩

theorem widen (tidy : Tidy good exits dead bound lines) (more : ∀ l ∈ exits, l ∈ others) :
    Tidy good others dead bound lines :=
  ⟨tidy.obeys, tidy.unique, tidy.defined, fun l member => (tidy.closed l member).imp_right (more l)⟩

theorem relax (tidy : Tidy good exits dead bound lines) (within : ∀ l, fewer l ≤ dead l ∧ bound l ≤ allowed l) :
    Tidy good exits fewer allowed lines :=
  ⟨tidy.obeys, fun l => Nat.le_trans (tidy.unique l) (within l).2, fun l => Nat.le_trans (within l).1 (tidy.defined l),
    fun l member => (tidy.closed l member).imp_left fun live => Nat.lt_of_le_of_lt (within l).1 live⟩

theorem enclose (tidy : Tidy good (own ++ exits) dead bound lines)
    (live : ∀ l ∈ own, dead l < (definedLabels lines).count l) : Tidy good exits dead bound lines := by
  refine ⟨tidy.obeys, tidy.unique, tidy.defined, fun l member => ?_⟩
  rcases tidy.closed l member with inside | leaves
  · exact .inl inside
  · exact (List.mem_append.mp leaves).imp_left (live l)

theorem mem_defined (tidy : Tidy good exits dead bound lines) (member : l ∈ jumpTargets lines) :
    l ∈ definedLabels lines ∨ l ∈ exits :=
  (tidy.closed l member).imp_left fun live => List.count_pos_iff.mp (Nat.zero_lt_of_lt live)

section

variable (tidy : Tidy good [] dead (Label.between low high) lines)

include tidy

theorem between_of_mem (member : l ∈ jumpTargets lines) : low < l.number ∧ l.number ≤ high :=
  Label.between_pos (Nat.lt_of_lt_of_le
    (List.count_pos_iff.mpr ((tidy.mem_defined member).resolve_right List.not_mem_nil)) (tidy.unique l))

theorem unused (isDead : 0 < dead l) : (low < l.number ∧ l.number ≤ high) ∧ l ∉ jumpTargets lines := by
  have unique := tidy.unique l
  have defined := tidy.defined l
  refine ⟨Label.between_pos (by omega), fun member => ?_⟩
  have live := (tidy.closed l member).resolve_right List.not_mem_nil
  have once := Label.between_le_one low high l
  omega

end

theorem idle (obeys : good line) (noLabel : line.item.label? = none) (noJump : line.item.target? = none) :
    Unlabelled good exits [line] :=
  ⟨by simpa using obeys, by simp [definedLabels, noLabel], fun _ => Nat.zero_le _, by simp [jumpTargets, noJump]⟩

theorem preceded (head : Unlabelled good exits first) (tail : Tidy good exits dead bound second) :
    Tidy good exits dead bound (first ++ second) :=
  (head.append tail).relax fun _ => by omega

theorem followed (head : Tidy good exits dead bound first) (tail : Unlabelled good exits second) :
    Tidy good exits dead bound (first ++ second) :=
  head.append tail

variable {p : Limits} (ctx : Lower.Context)

theorem comment (text : Bytes) : Unlabelled (ctx.Keeps p) exits (ctx.comment text) := by
  simp only [Lower.Context.comment]
  split
  · exact idle ⟨rfl, Nat.le_refl _, by simp⟩ rfl rfl
  · exact nil

theorem label {ends : List Label} (l : Label) (isEnd : ends.Sublist [l]) :
    Tidy (ctx.Keeps p) exits (fun other => ends.count other) (fun other => [l].count other) [ctx.label l] :=
  ⟨by simpa [Lower.Context.label] using ⟨rfl, Nat.le_refl _, fun _ => nofun⟩, fun _ => Nat.le_refl _, fun other => isEnd.count_le other,
    by simp [jumpTargets, Lower.Context.label, Item.target?]⟩

theorem mark (l : Label) : Tidy (ctx.Keeps p) exits (fun _ => 0) (fun other => [l].count other) [ctx.label l] :=
  label ctx l (List.nil_sublist _)

theorem code (formed : Formed p instrs) (returns : ∀ bytes, .ret bytes ∈ instrs → bytes = ctx.paramBytes)
    (leads : ∀ i ∈ instrs, ∀ l, (Item.instr i).target? = some l → l ∈ exits) :
    Unlabelled (ctx.Keeps p) exits (ctx.code instrs) := by
  refine ⟨fun line member => ?_, fun l => by simp, fun _ => Nat.zero_le _, fun l member => ?_⟩
  · obtain ⟨i, there, rfl⟩ := List.mem_map.mp member
    refine ⟨?_, Nat.le_refl _, fun _ same => Item.instr.inj same ▸ formed i there⟩
    cases i with
    | ret bytes => exact decide_eq_true (returns bytes there)
    | mov | arithmetic | shiftLeft | shiftRight | mul | div | inc | dec | push | pop | pushByte | popByte | popBytes
    | call | jump | jumpIf => exact (formed _ there).sound
  · obtain ⟨line, there, jumps⟩ := List.mem_filterMap.mp member
    obtain ⟨i, isCode, rfl⟩ := List.mem_map.mp there
    exact .inr (leads i isCode l jumps)

theorem plain (plain : ∀ i ∈ instrs, i.isPlain = true) (formed : Formed p instrs) :
    Unlabelled (ctx.Keeps p) exits (ctx.code instrs) := by
  refine code ctx formed (fun bytes member => ?_) fun i member l jumps => ?_
  · have isPlain : (Instr.ret bytes).isPlain = true := plain _ member
    cases isPlain
  · rw [Item.target?_of_plain (plain i member)] at jumps
    cases jumps

theorem jump (isExit : l ∈ exits) : Unlabelled (ctx.Keeps p) exits (ctx.code [.jump l]) := by
  refine code ctx (.single rfl (by simp [Instr.operands])) (by simp) fun i member target jumps => ?_
  cases List.mem_singleton.mp member
  cases jumps
  exact isExit

theorem release (fits : p.Allows bytes) : Unlabelled (ctx.Keeps p) exits (ctx.code (Lower.release bytes)) := by
  simp only [Lower.release]
  split
  · rename_i positive
    exact plain ctx (by simp [Instr.isPlain]) (.arithmetic ⟨rfl, fits.natAbs (Int.le_of_lt positive)⟩)
  · exact nil

theorem epilogue (own : p.numbers ctx.paramBytes) :
    Unlabelled (ctx.Keeps p) exits (ctx.code (Lower.epilogue ctx.paramBytes)) := by
  have popped : Formed p [.pop (Lower.register .base)] := .single rfl (by simp [Instr.operands, Lower.register, Operand.Shows])
  have returned : Formed p [.ret ctx.paramBytes] := by
    refine .single rfl fun o isOperand => ?_
    simp only [Instr.operands] at isOperand
    split at isOperand
    · cases isOperand
    · cases List.mem_singleton.mp isOperand
      exact own
  refine code ctx (popped.append returned) (by simp [Lower.epilogue]) ?_
  simp [Lower.epilogue, Item.target?]

end Tidy

namespace Lower

def Context.exits (ctx : Context) : List Label := ctx.loop.elim [] fun labels => [labels.breaks, labels.continues]

namespace Site

def around (site : Site) (roles : List LabelRole) : List Label := roles.map site.label ++ site.ctx.exits

theorem label_mem_around {site : Site} (member : role ∈ roles := by decide) :
    site.label role ∈ site.around roles := List.mem_append_left _ (List.mem_map_of_mem member)

theorem exits_around (site : Site) (roles : List LabelRole) : ∀ l ∈ site.ctx.exits, l ∈ site.around roles :=
  fun _ isExit => List.mem_append_right _ isExit

end Site

variable {popped : Bytes → Int} {known : Vocabulary} {entry : Declaration}

theorem returnValue_level (lowers : e.Lowers popped) :
    (returnValue e).error = none ∧ Shifts popped 0 (returnValue e).code := by
  simp only [returnValue]
  split
  · exact ⟨lowers.fine, lowers.level⟩
  · refine ⟨lowers.fine, (lowers.level.append (.mov ?_)).of_eq (by simp)⟩
    cases Width.ofSize e.ty.size <;> decide

theorem declaration_array (isArray : entry.array = some storage) (positive : 0 < storage.length) :
    declaration entry =
      { code := [.arithmetic .sub (register .stack) (.immediate storage.reserved), .mov (register .dx) (register .base),
          .arithmetic .sub (register .dx) (.immediate (-storage.offset)), .push (register .dx)] } := by
  simp [declaration, isArray, Option.filter, positive]

theorem declaration_level (new : Declares frame locals entry) (lowers : ∀ e ∈ entry.init, e.Lowers popped) :
    (declaration entry).error = none ∧ Shifts popped (-entry.bytes) (declaration entry).code := by
  cases new with
  | @scalar name ty init fresh isValue initial =>
    cases init with
    | none =>
      refine ⟨rfl, (Shifts.single rfl).of_eq ?_⟩
      simp [Instr.stackEffect, Declaration.bytes, register]
    | some e =>
      have supplies := (lowers e rfl).supplies ((initial e rfl).2 ▸ isValue)
      obtain ⟨fine, pushed⟩ := pushSlot_shifts ty.size supplies
      refine ⟨fine, pushed.of_eq ?_⟩
      simp [Declaration.bytes, Ty.paddedSize_eq]
  | @array name element length reserved fresh isValue positive even =>
    rw [declaration_array rfl positive]
    refine ⟨rfl, ((Shifts.single rfl).append ((Shifts.mov (by decide)).append ((Shifts.arithmetic (by decide)).append
      (.single rfl)))).of_eq ?_⟩
    simp only [Instr.stackEffect, register, Declaration.bytes, Ty.paddedSize_eq]
    omega

def CallsBalance (popped : Bytes → Int) (known : Vocabulary) : Prop :=
  ∀ callee, known.callees callee → popped callee.name = 2 * callee.params.length

section

variable {condition : Option Expr} (balance : CallsBalance popped known)
  (typed : ∀ e ∈ condition, Typed known e ∧ e.ty = .flags)

include balance typed

theorem conditionalJump_cases (target : Label) :
    conditionalJump condition target = ([.jump target], none) ∨ conditionalJump condition target = ([], none) ∨
      ∃ code op, conditionalJump condition target = (code ++ [.jumpIf op target], none) ∧ Shifts popped 0 code := by
  cases condition with
  | none => exact .inl rfl
  | some e =>
    obtain ⟨isTyped, isFlags⟩ := typed e rfl
    rcases isTyped.constant_or_comparison isFlags with constant |
      ⟨pos, op, left, right, rfl, leftTyped, rightTyped, kind, listed, number, same⟩
    · simp only [conditionalJump, constant, ↓reduceIte]
      split
      · exact .inl rfl
      · exact .inr (.inl rfl)
    · have isValue := Ty.isValue_of_isArithmetic number
      obtain ⟨fine, level⟩ := comparison_level right.usesRegisters ((leftTyped.lowers balance).supplies isValue)
        ((rightTyped.lowers balance).supplies_sized (same ▸ isValue) (congrArg Ty.size same)) op
      refine .inr (.inr ⟨_, op, ?_, level⟩)
      rw [← fine]
      exact if_pos kind

theorem conditionalJump_fine (target : Label) :
    (conditionalJump condition target).2 = none := by
  rcases conditionalJump_cases balance typed target with decided | refuted | ⟨code, op, compared, _⟩
  · rw [decided]
  · rw [refuted]
  · rw [compared]

variable {p : Limits} {site : Site}

theorem test_tidy (covers : p.Covers known) (called : ∀ name ∈ callsOptional condition, p.callees name)
    (yesExit : site.label yes ∈ exits) (noExit : site.label no ∈ exits) :
    Unlabelled (site.ctx.Keeps p) exits (site.test condition yes no) := by
  have formed := conditionalJump_formed balance covers typed called (site.label yes)
  rw [Site.test, Context.code_append]
  refine .followed ?_ (.jump _ noExit)
  rcases conditionalJump_cases balance typed (site.label yes) with decided | refuted | ⟨code, op, compared, shifts⟩
  · rw [decided]
    exact .jump _ yesExit
  · rw [refuted]
    exact .nil
  · rw [compared] at formed ⊢
    obtain ⟨computed, jumped⟩ := List.forall_mem_append.mp formed
    rw [Context.code_append]
    refine .followed (.plain _ shifts.1 computed) (.code _ jumped (by simp) ?_)
    intro i member target jumps
    cases List.mem_singleton.mp member
    cases jumps
    exact yesExit

end

mutual

def deadEnds : Stmt → Site → List Label
  | .block _ body _, site => deadEndsAll body site.inBlock
  | .branch _ _ yes none, site => deadEnds yes site.inside
  | .branch _ _ yes (some no), site =>
    (if (site.inside.emitted yes).terminates && ((site.inElse yes).emitted no).terminates then [site.label .endIf] else [])
      ++ (deadEnds yes site.inside ++ deadEnds no (site.inElse yes))
  | .whileLoop _ _ body, site => deadEnds body site.inWhile
  | .forLoop _ init _ _ body _, site =>
    (match init with | some clause => deadEnds clause site.inside | none => []) ++ deadEnds body (site.inFor init)
  | _, _ => []

def deadEndsAll : List Stmt → Site → List Label
  | [], _ => []
  | s :: rest, site => deadEnds s site ++ if (site.emitted s).terminates then [] else deadEndsAll rest (site.following s)

end

theorem deadEndsAll_singleton (s : Stmt) (site : Site) : deadEndsAll [s] site = deadEnds s site := by
  simp [deadEndsAll]

theorem deadEnds_forLoop (pos : Position) (init : Option Stmt) (condition post : Option Expr) (body : Stmt) (cleanup : Int)
    (site : Site) : deadEnds (.forLoop pos init condition post body cleanup) site =
      deadEndsAll init.toList site.inside ++ deadEnds body (site.inFor init) := by
  cases init with
  | none => rfl
  | some clause => rw [Option.toList_some, deadEndsAll_singleton, deadEnds]

structure Settled (p : Limits) (site : Site) (dead : List Label) (emitted : Emitted) : Prop where
  fine : emitted.error = none
  tidy : Tidy (site.ctx.Keeps p) site.ctx.exits (fun l => dead.count l) (Label.between site.labels emitted.labels)
    emitted.lines

abbrev SettledBody (raw : Bool) (settings : Settings) (labels : Nat) (f : Function) (body : Stmt) : Prop :=
  Settled (.any raw) (bodySite settings labels f) (deadEnds body (bodySite settings labels f))
    ((bodySite settings labels f).emitted body)

theorem SettledBody.fine (settled : SettledBody raw settings labels f body) :
    (procedure settings labels f body).error = none := by
  have inside := Settled.fine settled
  rwa [procedure_eq]

namespace Settled

variable {p : Limits} {exits : List Label} {site : Site} {dead others : List Label}

theorem single : Settled p site (deadEndsAll [s] site) (site.emittedAll [s]) ↔
    Settled p site (deadEnds s site) (site.emitted s) := by
  rw [deadEndsAll_singleton, site.emittedAll_singleton]

theorem fresh (settled : Settled p site dead emitted) (low : l.number ≤ site.labels) : dead.count l = 0 := by
  have unique := settled.tidy.unique l
  have defined := settled.tidy.defined l
  have none : Label.between site.labels emitted.labels l = 0 := if_neg (by omega)
  omega

theorem simple (fine : emitted.error = none)
    (tidy : Unlabelled (site.ctx.Keeps p) site.ctx.exits emitted.lines) : Settled p site [] emitted :=
  ⟨fine, tidy.relax fun _ => ⟨Nat.le_refl _, Nat.zero_le _⟩⟩

theorem nil : Settled p site [] (site.emittedAll []) := by
  rw [site.emittedAll_nil]
  exact simple rfl .nil

theorem cons (first : Settled p site dead (site.emitted s))
    (later : Settled p (site.following s) others ((site.following s).emittedAll rest)) :
    Settled p site (dead ++ if (site.emitted s).terminates then [] else others) (site.emittedAll (s :: rest)) := by
  cases goes : (site.emitted s).terminates with
  | true =>
    rw [site.emittedAll_of_terminates goes, if_pos rfl, List.append_nil]
    exact first
  | false =>
    rw [site.emittedAll_of_goes goes, if_neg (by decide)]
    refine ⟨by rw [first.fine, later.fine]; rfl, (first.tidy.append later.tidy).relax fun l => ⟨?_, ?_⟩⟩
    · rw [List.count_append]
    · exact Nat.le_of_eq (Label.between_add (site.grows s) ((site.following s).growsAll rest) l)

theorem leave (isExit : l ∈ site.ctx.exits) (fits : p.Allows cleanup) : Settled p site [] (site.leave text cleanup l) := by
  refine simple rfl (.followed (.preceded (.comment _ text) ?_) (.jump _ isExit))
  split
  · exact .release _ fits
  · exact .nil

theorem leavesLoop (inLoop : site.ctx.loop.isSome = true) (fits : p.Allows cleanup) (pos : Position) :
    Settled p site [] (site.emitted (.breakLoop pos cleanup)) ∧
      Settled p site [] (site.emitted (.continueLoop pos cleanup)) := by
  obtain ⟨labels, isLoop⟩ := Option.isSome_iff_exists.mp inLoop
  rw [site.emitted_breakLoop isLoop, site.emitted_continueLoop isLoop]
  constructor <;> exact leave (by simp [Context.exits, isLoop]) fits

theorem assembly (allowed : p.raw = true) (pos : Position) (lines : List Bytes) :
    Settled p site [] (site.emitted (.assembly pos lines)) := by
  have shape : site.emitted (.assembly pos lines) =
      { lines := ⟨site.ctx.indent, .comment "=== inline assembly block ==="⟩
          :: lines.map (⟨site.ctx.indent, .verbatim ·⟩)
          ++ [⟨site.ctx.indent, .comment "=== end of inline assembly ==="⟩]
        labels := site.labels } := by
    simp [Site.emitted, statement]
  rw [shape]
  have said (text : Bytes) : Unlabelled (site.ctx.Keeps p) site.ctx.exits [⟨site.ctx.indent, .comment text⟩] :=
    .idle ⟨rfl, Nat.le_refl _, by simp⟩ rfl rfl
  have copied : Unlabelled (site.ctx.Keeps p) site.ctx.exits
      (lines.map fun text => (⟨site.ctx.indent, .verbatim text⟩ : Line)) := by
    clear shape
    induction lines with
    | nil => exact .nil
    | cons text rest ih =>
      have verbatim : Unlabelled (site.ctx.Keeps p) site.ctx.exits [⟨site.ctx.indent, .verbatim text⟩] :=
        .idle ⟨allowed, Nat.le_refl _, by simp⟩ rfl rfl
      exact verbatim.preceded ih
  exact simple rfl (((said _).preceded copied).followed (said _))

variable (balance : CallsBalance popped known) (covers : p.Covers known)

section

include balance covers

theorem evaluate (typed : Typed known e) (called : ∀ name ∈ e.calls, p.callees name) (pos : Position) :
    Settled p site [] (site.emitted (.evaluate pos e)) := by
  have lowers := typed.lowers balance
  rw [site.emitted_evaluate]
  exact simple lowers.fine (.preceded (.comment _ _) (.plain _ lowers.level.1 (typed.formed balance covers called).code))

theorem ret (typed : ∀ e ∈ value, Typed known e ∧ e.ty.IsValue) (called : ∀ name ∈ callsOptional value, p.callees name)
    (fits : p.Allows cleanup) (own : p.numbers site.ctx.paramBytes) (pos : Position) :
    Settled p site [] (site.emitted (.ret pos value cleanup)) := by
  have computed : (value.elim {} returnValue).error = none ∧ Shifts popped 0 (value.elim {} returnValue).code ∧
      Formed p (value.elim {} returnValue).code := by
    cases value with
    | none => exact ⟨rfl, .nil, .nil⟩
    | some e =>
      obtain ⟨isTyped, isValue⟩ := typed e rfl
      obtain ⟨fine, level⟩ := returnValue_level (isTyped.lowers balance)
      exact ⟨fine, level, returnValue_formed balance covers isTyped isValue called⟩
  rw [site.emitted_ret, Context.code_append, Context.code_append]
  refine simple computed.1 ?_
  exact .preceded (.comment _ _)
    (((Tidy.plain _ computed.2.1.1 computed.2.2).followed (.release _ fits)).followed (.epilogue _ own))

end

theorem declaration_formed (new : Declares frame locals entry) (declared : Locals frame locals)
    (balance : CallsBalance popped (frame.vocabulary locals)) (covers : p.Covers (frame.vocabulary locals))
    (fits : p.Allows (-entry.offset)) (called : ∀ name ∈ callsOptional entry.init, p.callees name) :
    Formed p (declaration entry).code := by
  cases new with
  | @scalar name ty init fresh isValue initial =>
    cases init with
    | none => exact .arithmetic ⟨rfl, by simpa [Operand.Shows, Ty.paddedSize_eq] using covers.small 2 (by decide)⟩
    | some e =>
      obtain ⟨built, same⟩ := initial e rfl
      subst same
      exact pushSlot_formed e.ty ((built.typed.lowers balance).fits isValue) (built.typed.formed balance covers called)
  | @array name element length reserved fresh isValue positive even =>
    have nonneg := declared.bytes_nonneg
    have room := element.reserved_pos positive even
    simp only [Ty.paddedSize_eq] at fits
    rw [declaration_array rfl positive]
    have lowered : Formed p [.arithmetic .sub (register .stack) (.immediate reserved)] :=
      .arithmetic ⟨rfl, fits _ (by omega)⟩
    have moved : Formed p [.arithmetic .sub (register .dx) (.immediate (- -(localsBytes locals + reserved)))] :=
      .arithmetic ⟨rfl, fits _ (by omega)⟩
    have copied : Formed p [.mov (register .dx) (register .base)] := .mov (Operand.reads_register p rfl)
    have pushed : Formed p [.push (register .dx)] := .single rfl (by simp [Instr.operands, register, Operand.Shows])
    exact lowered.append (copied.append (moved.append pushed))

theorem declare (new : Declares frame locals entry) (declared : Locals frame locals)
    (balance : CallsBalance popped (frame.vocabulary locals)) (covers : p.Covers (frame.vocabulary locals))
    (fits : p.Allows (-entry.offset)) (called : ∀ name ∈ callsOptional entry.init, p.callees name) (pos : Position) :
    Settled p site [] (site.emitted (.declare pos entry)) := by
  have initial (e : Expr) (isInit : e ∈ entry.init) : e.Lowers popped := by
    cases new with
    | scalar _ _ initial => exact (initial e isInit).1.typed.lowers balance
    | array => cases isInit
  obtain ⟨fine, shifts⟩ := declaration_level new initial
  rw [site.emitted_declare]
  exact simple fine (.preceded (.comment _ _)
    (.plain _ shifts.1 (declaration_formed new declared balance covers fits called)))

theorem block_tidy (inner : Settled p site.inBlock dead (site.inBlock.emittedAll body)) (fits : p.Allows cleanup)
    (pos : Position) :
    Tidy (site.inBlock.ctx.Keeps p) site.ctx.exits (fun l => dead.count l)
      (Label.between site.labels (site.emitted (.block pos body cleanup)).labels)
      (site.emitted (.block pos body cleanup)).lines := by
  rw [site.emitted_block]
  split
  · exact inner.tidy
  · rename_i goes
    simp only [Bool.or_eq_true, decide_eq_true_eq, not_or, Int.not_le] at goes
    have dropped : Unlabelled (site.inBlock.ctx.Keeps p) site.ctx.exits (site.inBlock.ctx.code [.popBytes cleanup]) := by
      refine .plain _ (by simp [Instr.isPlain]) (.single rfl ?_)
      simpa [Instr.operands, Operand.Shows] using fits.natAbs (Int.le_of_lt goes.2)
    exact (inner.tidy.followed (.comment _ _)).followed dropped

theorem block (inner : Settled p site.inBlock dead (site.inBlock.emittedAll body)) (fits : p.Allows cleanup)
    (pos : Position) : Settled p site dead (site.emitted (.block pos body cleanup)) := by
  refine ⟨?_, (inner.block_tidy fits pos).outdent (Nat.le_succ _)⟩
  rw [site.emitted_block]
  split <;> exact inner.fine

theorem construct {roles : List LabelRole} {listed bound : Label → Nat} (unused : List LabelRole) (dead : List Label)
    (fine : emitted.error = none)
    (grows : site.labels + 1 ≤ emitted.labels)
    (tidy : Tidy (site.ctx.Keeps p) (site.around roles) listed bound emitted.lines) (distinct : (roles ++ unused).Nodup)
    (defined : ∀ role ∈ roles, site.label role ∈ definedLabels emitted.lines)
    (fresh : ∀ l : Label, l.number ≤ site.labels + 1 → dead.count l = 0)
    (within : ∀ l, listed l = (unused.map site.label).count l + dead.count l ∧
      bound l = ((roles ++ unused).map site.label).count l + Label.between (site.labels + 1) emitted.labels l) :
    Settled p site (unused.map site.label ++ dead) emitted := by
  refine ⟨fine, (tidy.enclose fun l member => ?_).relax fun l => ?_⟩
  · obtain ⟨role, isRole, rfl⟩ := List.mem_map.mp member
    have apart : (unused.map site.label).count (site.label role) = 0 := by
      refine List.count_eq_zero.mpr fun there => ?_
      obtain ⟨other, isUnused, same⟩ := List.mem_map.mp there
      exact (List.disjoint_of_nodup_append distinct) isRole ((Label.mk.injEq .. ▸ same).2 ▸ isUnused)
    rw [(within _).1, apart, fresh _ (Nat.le_refl _)]
    exact List.count_pos_iff.mpr (defined role isRole)
  · rw [(within l).1, (within l).2, List.count_append]
    exact ⟨Nat.le_refl _, Label.between_own grows distinct l⟩

variable {condition : Option Expr} (typed : ∀ e ∈ condition, Typed known e ∧ e.ty = .flags)
  (called : ∀ name ∈ callsOptional condition, p.callees name)

include balance covers typed called

theorem tested (yesExit : site.label yes ∈ exits) (noExit : site.label no ∈ exits) :
    Tidy (site.ctx.Keeps p) exits (fun _ => 0) (fun l => [site.label yes].count l)
      (site.test condition yes no ++ [site.ctx.label (site.label yes)]) :=
  (test_tidy balance typed covers called yesExit noExit).preceded (.mark _ _)

theorem beforeYes_tidy (s : Stmt) (yesExit : site.label .trueBranch ∈ exits) (noExit : site.label no ∈ exits) :
    Tidy (site.ctx.Keeps p) exits (fun _ => 0) (fun l => [site.label .trueBranch].count l) (site.beforeYes condition no s) := by
  rw [Site.beforeYes, List.append_assoc]
  exact .preceded (.comment _ _) (tested balance covers typed called yesExit noExit)

theorem branch (inner : Settled p site.inside dead (site.inside.emitted yes)) (pos : Position) :
    Settled p site dead (site.emitted (.branch pos condition yes none)) := by
  rw [site.emitted_branch]
  have before : Tidy (site.ctx.Keeps p) (site.around [.trueBranch, .endIf]) _ _
      (site.beforeYes condition .endIf (.branch pos condition yes none)) :=
    beforeYes_tidy balance covers typed called _ Site.label_mem_around Site.label_mem_around
  have whole := (before.append (inner.tidy.widen (site.exits_around _))).append (.mark site.ctx (site.label .endIf))
  refine construct [] dead (by rw [conditionalJump_fine balance typed, inner.fine]; rfl) (site.inside.grows yes) whole (by decide)
    (by simp [Site.beforeYes]) (fun _ => inner.fresh) fun l => ?_
  simp only [List.append_nil, List.map_cons, List.map_nil, List.count_cons, List.count_nil, Site.inside]
  omega

theorem branchElse (inner : Settled p site.inside dead (site.inside.emitted yes))
    (other : Settled p (site.inElse yes) others ((site.inElse yes).emitted no)) (pos : Position) :
    Settled p site ((if (site.inside.emitted yes).terminates && ((site.inElse yes).emitted no).terminates then
        [site.label .endIf] else []) ++ (dead ++ others)) (site.emitted (.branch pos condition yes (some no))) := by
  have middle : site.labels + 1 ≤ (site.inside.emitted yes).labels := site.inside.grows yes
  have high : (site.inside.emitted yes).labels ≤ ((site.inElse yes).emitted no).labels := (site.inElse yes).grows no
  -- Control comes to the end by a jump unless the first part terminates.
  have ended (roles unused : List LabelRole) (all : roles ++ unused = [.trueBranch, .falseBranch, .endIf])
      (isEnd : unused.Sublist [.endIf]) (starts : .trueBranch ∈ roles ∧ .falseBranch ∈ roles)
      (jumps : (site.inside.emitted yes).terminates = false → .endIf ∈ roles) :
      Settled p site (unused.map site.label ++ (dead ++ others)) (site.emitted (.branch pos condition yes (some no))) := by
    rw [site.emitted_branchElse]
    have before : Tidy (site.ctx.Keeps p) (site.around roles) _ _
        (site.beforeYes condition .falseBranch (.branch pos condition yes (some no))) :=
      beforeYes_tidy balance covers typed called _ (Site.label_mem_around starts.1) (Site.label_mem_around starts.2)
    have between : Tidy (site.ctx.Keeps p) (site.around roles) (fun _ => 0) (fun l => [site.label .falseBranch].count l)
        (site.beforeNo yes) := by
      refine .preceded ?_ (.mark _ _)
      split
      · exact .nil
      · rename_i goes
        exact .jump _ (Site.label_mem_around (jumps (Bool.eq_false_iff.mpr goes)))
    have whole := (((before.append (inner.tidy.widen (site.exits_around _))).append between).append
      (other.tidy.widen (site.exits_around _))).append (.label site.ctx (site.label .endIf) (isEnd.map site.label))
    refine construct unused (dead ++ others) (by rw [conditionalJump_fine balance typed, inner.fine, other.fine]; rfl) (Nat.le_trans middle high)
      whole (all ▸ by decide) (fun role isRole => ?_) (fun l low => ?_) fun l => ?_
    · have listed : role ∈ [LabelRole.trueBranch, .falseBranch, .endIf] := all ▸ List.mem_append_left _ isRole
      simp only [List.mem_cons, List.not_mem_nil, or_false] at listed
      rcases listed with rfl | rfl | rfl <;> simp [Site.beforeYes, Site.beforeNo]
    · rw [List.count_append, inner.fresh low, other.fresh (Nat.le_trans low middle)]
    · rw [← Label.between_add middle high, all, List.count_append]
      simp only [List.map_cons, List.map_nil, List.count_cons, List.count_nil, Site.inside, Site.inElse]
      omega
  cases first : (site.inside.emitted yes).terminates with
  | false => exact ended [.trueBranch, .falseBranch, .endIf] [] rfl (by decide) (by decide) (by simp)
  | true =>
    cases second : ((site.inElse yes).emitted no).terminates with
    | false => exact ended [.trueBranch, .falseBranch, .endIf] [] rfl (by decide) (by decide) (by simp)
    | true => exact ended [.trueBranch, .falseBranch] [.endIf] rfl (by decide) (by decide) (by simp [first])

theorem whileLoop (inner : Settled p site.inWhile dead (site.inWhile.emitted body)) (pos : Position) :
    Settled p site dead (site.emitted (.whileLoop pos condition body)) := by
  rw [site.emitted_whileLoop]
  have before : Tidy (site.ctx.Keeps p) (site.around [.whileCondition, .whileBody, .whileEnd]) (fun _ => 0)
      (fun l => [site.label .whileCondition].count l + [site.label .whileBody].count l)
      (site.beforeWhile condition (.whileLoop pos condition body)) := by
    rw [Site.beforeWhile, List.append_assoc]
    exact .preceded (.comment _ _) ((Tidy.mark _ _).append
      (tested balance covers typed called Site.label_mem_around Site.label_mem_around))
  have bodyLines : Tidy (site.ctx.Keeps p) (site.around [.whileCondition, .whileBody, .whileEnd]) _ _
      (site.inWhile.emitted body).lines := inner.tidy.widen (by simp [Site.inWhile, Context.exits, Site.around])
  have whole := ((before.append bodyLines).followed (.jump site.ctx (l := site.label .whileCondition)
    Site.label_mem_around)).append (.mark site.ctx (site.label .whileEnd))
  refine construct [] dead (by rw [conditionalJump_fine balance typed, inner.fine]; rfl) (site.inWhile.grows body) whole (by decide)
    (by simp [Site.beforeWhile]) (fun _ => inner.fresh) fun l => ?_
  simp only [List.append_nil, List.map_cons, List.map_nil, List.count_cons, List.count_nil, Site.inside, Site.inWhile]
  omega

theorem forLoop {init : Option Stmt} (first : Settled p site.inside dead (site.inside.emittedAll init.toList))
    (typedPost : ∀ e ∈ post, Typed known e) (calledPost : ∀ name ∈ callsOptional post, p.callees name)
    (inner : Settled p (site.inFor init) others ((site.inFor init).emitted body)) (fits : p.Allows cleanup)
    (pos : Position) :
    Settled p site (dead ++ others) (site.emitted (.forLoop pos init condition post body cleanup)) := by
  let roles : List LabelRole := [.forCondition, .forBody, .forIncrement, .forEnd]
  have next : (post.elim {} expression).error = none ∧ Unlabelled (site.ctx.Keeps p) (site.around roles)
      (site.ctx.code (post.elim {} expression).code) := by
    cases post with
    | none => exact ⟨rfl, .nil⟩
    | some e =>
      have lowers := (typedPost e rfl).lowers balance
      exact ⟨lowers.fine, .plain _ lowers.level.1 ((typedPost e rfl).formed balance covers calledPost).code⟩
  have optional (shown : Prop) [Decidable shown] (text : Bytes) : Unlabelled (site.ctx.Keeps p) (site.around roles)
      (if shown then site.ctx.comment text else []) := by
    split
    · exact .comment _ _
    · exact .nil
  rw [site.emitted_forLoop]
  have before : Tidy (site.ctx.Keeps p) (site.around roles) (fun l => dead.count l)
      (fun l => Label.between (site.labels + 1) (site.initializer init).labels l
        + ([site.label .forCondition].count l + [site.label .forBody].count l))
      (site.beforeFor init condition (.forLoop pos init condition post body cleanup)) := by
    rw [Site.beforeFor, List.append_assoc, Site.initializer_eq]
    exact (((Tidy.comment _ _).preceded ((optional _ _).preceded (first.tidy.widen (site.exits_around _)))).followed
      (.comment _ _)).append ((Tidy.mark _ _).append
        (tested balance covers typed called Site.label_mem_around Site.label_mem_around))
  have bodyLines : Tidy (site.ctx.Keeps p) (site.around roles) _ _
      ((site.inFor init).emitted body).lines := inner.tidy.widen (by simp [Site.inFor, Context.exits, Site.around, roles])
  have advance : Tidy (site.ctx.Keeps p) (site.around roles) (fun _ => 0) (fun l => [site.label .forIncrement].count l)
      (site.ctx.label (site.label .forIncrement) :: (if post.isSome then site.ctx.comment "for incrementer" else [])
        ++ site.ctx.code ((post.elim {} expression).code ++ [.jump (site.label .forCondition)])) := by
    rw [Context.code_append]
    exact (Tidy.mark _ _).followed ((optional _ _).followed (next.2.followed (.jump _ Site.label_mem_around)))
  have exit : Tidy (site.ctx.Keeps p) (site.around roles) (fun _ => 0) (fun l => [site.label .forEnd].count l)
      (site.ctx.label (site.label .forEnd) ::
        (if 0 < cleanup then site.ctx.comment ("exiting for, popping " ++ Bytes.ofInt cleanup ++ " bytes") else [])
        ++ site.ctx.code (release cleanup)) :=
    (Tidy.mark _ _).followed ((optional _ _).followed (.release _ fits))
  have middle := site.grows_initializer init
  have high : (site.initializer init).labels ≤ ((site.inFor init).emitted body).labels := (site.inFor init).grows body
  refine construct [] (dead ++ others) ?_ (Nat.le_trans middle high) (((before.append bodyLines).append advance).append exit)
    (by decide) (by simp [Site.beforeFor, roles]) (fun l low => ?_) fun l => ?_
  · rw [Site.initializer_eq, first.fine, conditionalJump_fine balance typed, inner.fine, next.1]
    rfl
  · rw [List.count_append, first.fresh low, inner.fresh (Nat.le_trans low middle)]
  · rw [← Label.between_add middle high, List.count_append]
    simp only [roles, List.append_nil, List.map_cons, List.map_nil, List.count_cons, List.count_nil, Site.inFor]
    omega

end Settled

end Lower

namespace Stmt

mutual

def hasAssembly : Stmt → Bool
  | .assembly _ _ => true
  | .block _ body _ => anyAssembly body
  | .branch _ _ yes no => hasAssembly yes || optionalAssembly no
  | .whileLoop _ _ body => hasAssembly body
  | .forLoop _ init _ _ body _ => optionalAssembly init || hasAssembly body
  | _ => false

def optionalAssembly : Option Stmt → Bool
  | some s => hasAssembly s
  | none => false

def anyAssembly : List Stmt → Bool
  | [] => false
  | s :: rest => hasAssembly s || anyAssembly rest

end

@[simp] theorem anyAssembly_singleton (s : Stmt) : anyAssembly [s] = hasAssembly s := by
  rw [anyAssembly, anyAssembly, Bool.or_false]

theorem optionalAssembly_eq (s : Option Stmt) : optionalAssembly s = anyAssembly s.toList := by
  cases s with
  | none => rfl
  | some s => rw [optionalAssembly, Option.toList_some, anyAssembly_singleton]

theorem row_within {s : Stmt} (isRow : row ∈ s.rows) :
    callsAll row ⊆ s.calls ∧ (anyAssembly row = true → s.hasAssembly = true) := by
  cases s with
  | block pos body cleanup =>
    cases List.mem_singleton.mp isRow
    exact ⟨fun _ => id, id⟩
  | branch pos condition yes no =>
    cases no with
    | none =>
      cases List.mem_singleton.mp isRow
      simp [callsAll, calls, hasAssembly, optionalAssembly]
    | some no =>
      simp only [rows, Option.toList_some, List.map_cons, List.map_nil, List.mem_cons, List.not_mem_nil, or_false] at isRow
      rcases isRow with rfl | rfl <;> simp +contextual [callsAll, calls, hasAssembly, optionalAssembly]
  | whileLoop pos condition body =>
    cases List.mem_singleton.mp isRow
    simp [callsAll, calls, hasAssembly]
  | forLoop pos init condition post body cleanup =>
    cases List.mem_singleton.mp isRow
    cases init <;> simp +contextual [callsAll, calls, hasAssembly, optionalAssembly, anyAssembly]
  | empty | breakLoop | continueLoop | assembly | ret | declare | evaluate | bare | stray => cases isRow

end Stmt

structure Limits.Admits (p : Limits) (frame : Frame) (loop : Option (List Declaration)) (locals : List Declaration)
    (body : List Stmt) : Prop where
  declared : Locals frame locals
  deep : p.Allows (localsBytes locals)
  outside : ∀ outer ∈ loop, 0 ≤ localsBytes outer
  shallow : ∀ inner pos entry, Stands locals body inner (.stmt (.declare pos entry)) → p.Allows (-entry.offset)
  called : ∀ name ∈ Stmt.callsAll body, p.callees name
  raw : Stmt.anyAssembly body = true → p.raw = true

theorem Accepts.deep {p : Limits} {locals : List Declaration} (accepts : Accepts frame loop locals body)
    (declared : Locals frame locals) (deep : p.Allows (localsBytes locals))
    (shallow : ∀ inner pos entry, Stands locals body inner (.stmt (.declare pos entry)) → p.Allows (-entry.offset)) :
    p.Allows (localsBytes (Stmt.declared body ++ locals)) := by
  induction accepts with
  | @cons _ _ _ rest first _ ihFirst ihOthers =>
    rw [Stmt.declared, List.append_assoc]
    exact ihOthers (first.locals declared)
      (ihFirst declared deep fun inner pos entry stands => shallow inner pos entry (stands.first rest))
      fun inner pos entry stands => shallow inner pos entry (.later stands)
  | declare pos new =>
    have depth := new.offset
    refine (shallow _ pos _ .here).mono ?_
    rw [Stmt.declared_singleton, Stmt.declares, List.singleton_append, localsBytes_cons]
    omega
  | nil | breakLoop | continueLoop | assembly | branch | branchElse | whileLoop | forLoop | ret | block | evaluate =>
    exact deep

namespace Limits.Admits

variable {p : Limits} {frame : Frame} {loop : Option (List Declaration)} {locals : List Declaration} {s : Stmt}
  {rest : List Stmt}

theorem first (admits : p.Admits frame loop locals (s :: rest)) : p.Admits frame loop locals [s] where
  __ := admits
  shallow inner pos entry stands := admits.shallow inner pos entry (stands.first rest)
  called name isCalled := admits.called name (by simpa [Stmt.callsAll] using Or.inl (by simpa [Stmt.callsAll] using isCalled))
  raw has := admits.raw (by simpa [Stmt.anyAssembly] using Or.inl (by simpa using has))

theorem later (admits : p.Admits frame loop locals (s :: rest)) (first : Accepts frame loop locals [s]) :
    p.Admits frame loop (s.declares ++ locals) rest where
  declared := first.locals admits.declared
  deep := first.deep admits.declared admits.deep admits.first.shallow
  outside := admits.outside
  shallow inner pos entry stands := admits.shallow inner pos entry (.later stands)
  called name isCalled := admits.called name (by simp [Stmt.callsAll, isCalled])
  raw has := admits.raw (by simp [Stmt.anyAssembly, has])

theorem row (admits : p.Admits frame loop locals [s]) (isRow : nested ∈ s.rows)
    (outside : ∀ outer ∈ other, 0 ≤ localsBytes outer) : p.Admits frame other locals nested where
  __ := admits
  outside
  shallow nested pos entry stands := admits.shallow nested pos entry (.row isRow stands)
  called name isCalled := admits.called name (by simp [Stmt.callsAll, (Stmt.row_within isRow).1 isCalled])
  raw has := admits.raw (by simp [(Stmt.row_within isRow).2 has])

theorem loopBody (admits : p.Admits frame loop locals [.forLoop pos init condition post body cleanup])
    (first : Accepts frame loop locals init.toList) :
    p.Admits frame (some (Stmt.declared init.toList ++ locals)) (Stmt.declared init.toList ++ locals) [body] where
  declared := first.locals admits.declared
  deep := first.deep admits.declared admits.deep fun inner pos entry stands =>
    admits.shallow inner pos entry (.row (List.mem_singleton_self _) stands)
  outside := by simpa using (first.locals admits.declared).bytes_nonneg
  shallow inner pos entry stands := admits.shallow inner pos entry (.loopBody stands)
  called name isCalled := admits.called name (by cases init <;> simp_all [Stmt.callsAll, Stmt.calls])
  raw has := admits.raw (by simp_all [Stmt.hasAssembly])

end Limits.Admits

theorem Lower.CallsBalance.of_functions {popped : Bytes → Int} {frame : Frame}
    (balance : ∀ f ∈ frame.functions, popped f.name = 2 * f.params.length) (locals : List Declaration) :
    CallsBalance popped (frame.vocabulary locals) := by
  rintro _ ⟨f, member, rfl⟩
  exact balance f member

theorem Frame.IsCondition.typed (isCondition : IsCondition frame locals e) :
    ∀ test ∈ some e, Typed (frame.vocabulary locals) test ∧ test.ty = .flags := by
  rintro _ ⟨rfl⟩
  exact ⟨isCondition.1.typed, isCondition.2⟩

theorem Accepts.settled {p : Limits} {popped : Bytes → Int} {frame : Frame} {locals : List Declaration}
    (accepted : Accepts frame loop locals body) (balance : ∀ f ∈ frame.functions, popped f.name = 2 * f.params.length)
    (near : ∀ {locals}, Locals frame locals → p.Allows (localsBytes locals) → p.Covers (frame.vocabulary locals))
    (admits : p.Admits frame loop locals body) (site : Lower.Site) (own : p.numbers site.ctx.paramBytes)
    (inLoop : loop.isSome = true → site.ctx.loop.isSome = true) :
    Lower.Settled p site (Lower.deadEndsAll body site) (site.emittedAll body) := by
  have calls := Lower.CallsBalance.of_functions balance
  -- Each construct lowers its parts at a site of its own, with labels that start above its number.
  induction accepted generalizing site with
  | nil => exact .nil
  | @cons loop locals s rest first others ihFirst ihOthers =>
    exact .cons (Lower.Settled.single.mp (ihFirst admits.first site own inLoop))
      (ihOthers (admits.later first) (site.following s) own inLoop)
  | @breakLoop outer locals pos =>
    have nonneg := admits.outside outer rfl
    exact Lower.Settled.single.mpr (Lower.Settled.leavesLoop (inLoop rfl) (admits.deep.mono (by omega)) pos).1
  | @continueLoop outer locals pos =>
    have nonneg := admits.outside outer rfl
    exact Lower.Settled.single.mpr (Lower.Settled.leavesLoop (inLoop rfl) (admits.deep.mono (by omega)) pos).2
  | assembly pos lines => exact Lower.Settled.single.mpr (.assembly (admits.raw rfl) pos lines)
  | @branch loop locals pos e yes condition closed _ ih =>
    have inner := ih (admits.row (by simp [Stmt.rows]) admits.outside) site.inside own inLoop
    refine Lower.Settled.single.mpr (.branch (calls _) (near admits.declared admits.deep) condition.typed
      (fun name isCalled => admits.called name ?_) (Lower.Settled.single.mp inner) pos)
    simp [Stmt.callsAll, Stmt.calls, isCalled]
  | @branchElse loop locals pos e yes no condition closed closedElse _ _ ihYes ihNo =>
    have first := ihYes (admits.row (by simp [Stmt.rows]) admits.outside) site.inside own inLoop
    have second := ihNo (admits.row (by simp [Stmt.rows]) admits.outside) (site.inElse yes) own inLoop
    refine Lower.Settled.single.mpr (.branchElse (calls _) (near admits.declared admits.deep) condition.typed
      (fun name isCalled => admits.called name ?_) (Lower.Settled.single.mp first) (Lower.Settled.single.mp second) pos)
    simp [Stmt.callsAll, Stmt.calls, isCalled]
  | @whileLoop loop locals pos e body condition closed _ ih =>
    have inner := ih (admits.row (by simp [Stmt.rows]) (by simpa using admits.declared.bytes_nonneg)) site.inWhile own
      fun _ => rfl
    refine Lower.Settled.single.mpr (.whileLoop (calls _) (near admits.declared admits.deep) condition.typed
      (fun name isCalled => admits.called name ?_) (Lower.Settled.single.mp inner) pos)
    simp [Stmt.callsAll, Stmt.calls, isCalled]
  | @forLoop loop locals inside pos init condition post body first opened test next closed _ ihFirst ihBody =>
    subst opened
    have later := admits.loopBody first
    have start := ihFirst (admits.row (by simp [Stmt.rows]) admits.outside) site.inside own inLoop
    have round := Lower.Settled.single.mp (ihBody later (site.inFor init) own fun _ => rfl)
    have nonneg := admits.declared.bytes_nonneg
    refine Lower.Settled.single.mpr ?_
    rw [Lower.deadEnds_forLoop]
    refine .forLoop (calls _) (near later.declared later.deep) (fun e isTest => ⟨(test e isTest).1.typed, (test e isTest).2⟩)
      (fun name isCalled => admits.called name ?_) start (fun e isPost => (next e isPost).typed)
      (fun name isCalled => admits.called name ?_) round (later.deep.mono (by omega)) pos
    · cases init <;> simp [Stmt.callsAll, Stmt.calls, isCalled]
    · cases init <;> simp [Stmt.callsAll, Stmt.calls, isCalled]
  | @ret loop locals pos value typed =>
    refine Lower.Settled.single.mpr (.ret (calls locals) (near admits.declared admits.deep) (fun e isValue => ?_)
      (fun name isCalled => admits.called name ?_) admits.deep own pos)
    · cases isValue
      exact ⟨typed.1.typed, typed.2.1 ▸ ⟨frame.returns_named, typed.2.2⟩⟩
    · simpa [Stmt.callsAll, Stmt.calls] using isCalled
  | declare pos new =>
    refine Lower.Settled.single.mpr (.declare new admits.declared (calls _) (near admits.declared admits.deep)
      (admits.shallow _ pos _ .here) (fun name isCalled => admits.called name ?_) pos)
    simpa [Stmt.callsAll, Stmt.calls] using isCalled
  | @block loop locals pos body accepted ih =>
    have within := admits.row (List.mem_singleton_self _) admits.outside
    have nonneg := admits.declared.bytes_nonneg
    have fits := accepted.deep admits.declared admits.deep within.shallow
    rw [localsBytes_append] at fits
    exact Lower.Settled.single.mpr (.block (ih within site.inBlock own inLoop) (fits.mono (by omega)) pos)
  | evaluate pos built =>
    refine Lower.Settled.single.mpr (.evaluate (calls _) (near admits.declared admits.deep) built.typed
      (fun name isCalled => admits.called name ?_) pos)
    simpa [Stmt.callsAll, Stmt.calls] using isCalled

def Stmt.leavesRound : Stmt → Bool
  | .breakLoop _ _ | .continueLoop _ _ => true
  | _ => false

theorem Accepts.of_block {locals : List Declaration} (accepted : Accepts frame loop locals [.block pos body cleanup]) :
    Accepts frame loop locals body := by
  generalize isBlock : [Stmt.block pos body cleanup] = row at accepted
  induction accepted with
  | cons _ _ ih =>
    cases isBlock
    exact ih rfl
  | block _ inner =>
    cases isBlock
    exact inner
  | _ => cases isBlock

theorem Accepts.inLoop {locals : List Declaration} (accepted : Accepts frame loop locals body)
    (part : Lower.Part site body before nested t) (inLoop : loop.isSome = true → site.ctx.loop.isSome = true)
    (leaves : t.leavesRound = true) : nested.ctx.loop.isSome = true := by
  induction accepted generalizing site before with
  | nil => cases part
  | cons _ _ ihFirst ihOthers =>
    rcases part.first_or_later with isFirst | ⟨_, rear, _, isLater⟩
    · exact ihFirst isFirst inLoop
    · exact ihOthers isLater inLoop
  | breakLoop | continueLoop =>
    obtain ⟨_, rfl, _⟩ := part.simple rfl
    exact inLoop rfl
  | assembly | ret | declare | evaluate =>
    obtain ⟨_, _, rfl⟩ := part.simple rfl
    cases leaves
  | branch _ _ _ _ ih =>
    cases part with
    | here => cases leaves
    | later _ part => cases part
    | yes part => exact ih part inLoop
  | branchElse _ _ _ _ _ _ ihYes ihNo =>
    cases part with
    | here => cases leaves
    | later _ part => cases part
    | yesOr part => exact ihYes part inLoop
    | no part => exact ihNo part inLoop
  | whileLoop _ _ _ _ ih =>
    cases part with
    | here => cases leaves
    | later _ part => cases part
    | whileBody part => exact ih part fun _ => rfl
  | forLoop _ _ _ _ _ _ _ ihFirst ihBody =>
    cases part with
    | here => cases leaves
    | later _ part => cases part
    | forInit part => exact ihFirst part inLoop
    | forBody part => exact ihBody part fun _ => rfl
  | block _ _ ih =>
    cases part with
    | here => cases leaves
    | later _ part => cases part
    | block part => exact ih part inLoop

end Cb
