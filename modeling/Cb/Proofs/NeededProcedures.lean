import Cb.Proofs.JumpTargets
import Cb.Proofs.Reachability
import Cb.Proofs.ReadingOrder

/-! The listing of a program holds the procedures that the program needs and no others: in the order in which their
names came up, with calls among them only, and as if the other functions were not there. -/

namespace Cb

def Item.opens? : Item → Option Bytes
  | .procedure name => some name
  | _ => none

def openedProcedures (lines : List Line) : List Bytes := lines.filterMap (·.item.opens?)

@[simp] theorem openedProcedures_append (first second : List Line) :
    openedProcedures (first ++ second) = openedProcedures first ++ openedProcedures second := List.filterMap_append

namespace Lower

variable {settings : Settings} {needed : List Bytes} {labels : Nat} {f : Function} {body : Stmt} {raw : Bool}

theorem procedure_opens (settled : SettledBody raw settings labels f body) :
    openedProcedures (procedure settings labels f body).lines = [f.name] := by
  obtain ⟨inside, shape, tidy⟩ := procedure_lines settled
  have none : openedProcedures inside = [] := by
    refine List.filterMap_eq_nil_iff.mpr fun line member => ?_
    have orderly := (tidy.obeys line member).orderly
    cases item : line.item with
    | procedure => simp [item, Item.isOrderly] at orderly
    | instr | label | comment | endProcedure | verbatim | blank => rfl
  rw [shape, openedProcedures_append, openedProcedures_append, none]
  rfl

def isNeeded (needed : List Bytes) (f : Function) : Bool := needed.contains f.name

def isEmitted (needed : List Bytes) (f : Function) : Bool := f.isImplemented && needed.contains f.name

def isUnused (needed : List Bytes) (f : Function) : Bool := f.isImplemented && !needed.contains f.name

theorem isEmitted_of_left (left : f.body = none ∨ needed.contains f.name = false) : isEmitted needed f = false := by
  rcases left with bodiless | unused
  · rw [isEmitted, Function.isImplemented, bodiless]
    rfl
  · rw [isEmitted, unused, Bool.and_false]

theorem isEmitted_of_used (implemented : f.body = some body) (used : needed.contains f.name = true) :
    isEmitted needed f = true := by
  rw [isEmitted, used, Function.isImplemented, implemented]
  rfl

variable {list : List Function}

theorem functions_opens (settled : ∀ f ∈ list, ∀ body, f.body = some body → ∀ labels,
      SettledBody raw settings labels f body) (labels : Nat) :
    openedProcedures (functions settings needed labels list).lines = (list.filter (isEmitted needed)).map (·.name) := by
  refine functions_induction settings needed list settled (fun _ => rfl) (fun left others => ?_) (fun implemented used first others => ?_) labels
  · rw [functions_lines_of_left left, others, List.filter_cons_of_neg (by simp [isEmitted_of_left left])]
  · rw [functions_lines_of_used implemented used first.fine, openedProcedures_append, procedure_opens first, others,
      List.filter_cons_of_pos (isEmitted_of_used implemented used)]
    rfl

theorem functions_warnings
    (fine : ∀ f ∈ list, ∀ body, f.body = some body → ∀ labels, (procedure settings labels f body).error = none)
    (labels : Nat) : (functions settings needed labels list).warnings =
      if settings.warnings .unusedFunction then (list.filter (isUnused needed)).map unusedWarning else [] := by
  induction list generalizing labels with
  | nil => simp [functions]
  | cons f rest ih =>
    have others := ih fun g member => fine g (by simp [member])
    cases implemented : f.body with
    | none =>
      have kept : isUnused needed f = false := by simp [isUnused, Function.isImplemented, implemented]
      rw [List.filter_cons_of_neg (by simp [kept])]
      simp only [functions, implemented, others]
    | some body =>
      have isImplemented : f.isImplemented = true := by simp [Function.isImplemented, implemented]
      cases used : needed.contains f.name with
      | true =>
        have kept : isUnused needed f = false := by rw [isUnused, used, Bool.not_true, Bool.and_false]
        rw [List.filter_cons_of_neg (by simp [kept])]
        simp only [functions, implemented, used, ↓reduceIte, fine f (by simp) body implemented labels, others]
      | false =>
        have left : isUnused needed f = true := by rw [isUnused, used, isImplemented, Bool.not_false, Bool.and_true]
        rw [List.filter_cons_of_pos left]
        simp only [functions, implemented, used, Bool.false_eq_true, ↓reduceIte]
        split
        · rename_i enabled
          simp only [others, enabled, ↓reduceIte, List.map_cons]
        · rename_i disabled
          simp only [others, disabled, Bool.false_eq_true, ↓reduceIte]

theorem functions_congr (same : ∀ name, name ∈ needed ↔ name ∈ other) (labels : Nat) (list : List Function) :
    functions settings needed labels list = functions settings other labels list := by
  have agree (name : Bytes) : needed.contains name = other.contains name := by
    rw [Bool.eq_iff_iff]
    simpa using same name
  induction list generalizing labels with
  | nil => rfl
  | cons f rest ih => simp only [functions, agree, ih]

theorem functions_lines_filter (labels : Nat) (list : List Function) :
    (functions settings needed labels (list.filter (isNeeded needed))).lines =
      (functions settings needed labels list).lines := by
  induction list generalizing labels with
  | nil => rfl
  | cons f rest ih =>
    cases used : needed.contains f.name with
    | false =>
      have dropped : isNeeded needed f = false := used
      rw [List.filter_cons_of_neg (by simp [dropped]), ih, functions_lines_of_left (Or.inr used)]
    | true =>
      rw [List.filter_cons_of_pos (show isNeeded needed f = true from used)]
      cases implemented : f.body with
      | none => rw [functions_lines_of_left (Or.inl implemented), functions_lines_of_left (Or.inl implemented), ih]
      | some body =>
        simp only [functions, implemented, used, ↓reduceIte]
        split
        · rfl
        · simp only [ih]

theorem Emits.used (emits : Emits settings needed labels list front start f body) :
    needed.contains f.name = true := by
  induction emits with
  | here _ used => exact used
  | later _ _ _ _ ih | skip _ _ ih => exact ih

end Lower

def Bytes.isNoCall (text : Bytes) : Bool := text.length ≥ 2 && text.take 2 ≠ [99, 97]

theorem Bytes.ne_call (differs : front.isNoCall = true) (rest name : Bytes) :
    front ++ rest ≠ "call " ++ name := by
  simp only [isNoCall, Bool.and_eq_true, decide_eq_true_eq] at differs
  intro same
  have starts := congrArg (List.take 2) same
  rw [List.take_append_of_le_length differs.1] at starts
  exact differs.2 starts

theorem Instr.eq_call_of_text {i : Instr} (sound : i.isSound = true) (reads : i.text = "call " ++ name) :
    i = .call name := by
  have binary {mnemonic : Bytes} (differs : mnemonic.isNoCall = true) (target source : Operand) :
      Instr.binary mnemonic target source ≠ "call " ++ name := by
    simp only [Instr.binary, List.append_assoc]
    exact Bytes.ne_call differs _ name
  have unary {mnemonic : Bytes} (differs : mnemonic.isNoCall = true) (operand : Operand) :
      Instr.unary mnemonic operand ≠ "call " ++ name := by
    simp only [Instr.unary, List.append_assoc]
    exact Bytes.ne_call differs _ name
  cases i with
  | call other => rw [List.append_cancel_left reads]
  | mov target source | shiftLeft target source | shiftRight target source => exact absurd reads (binary (by decide) _ _)
  | arithmetic op target source => exact absurd reads (binary (by cases op <;> decide) _ _)
  | mul operand | div operand | inc operand | dec operand | push operand | pop operand | pushByte operand
  | popByte operand => exact absurd reads (unary (by decide) _)
  | popBytes | jump => exact absurd reads (Bytes.ne_call (by decide) _ name)
  | jumpIf op target =>
    have differs : ∀ mnemonic ∈ conditionalJumps, mnemonic.isNoCall = true := by decide
    refine absurd reads ?_
    simp only [text, List.append_assoc]
    exact Bytes.ne_call (differs _ (of_decide_eq_true sound)) _ name
  | ret bytes =>
    refine absurd reads ?_
    simp only [text]
    split
    · exact (utf8 "ret").append_nil ▸ Bytes.ne_call (by decide) [] name
    · exact Bytes.ne_call (by decide) _ name

theorem Line.eq_call_of_text {line : Line} (legible : line.item.isLegible = true)
    (inside : ∀ other, line.item ≠ .procedure other) (reads : line.text.dropWhile (· = 32) = "call " ++ name) :
    line.item = .instr (.call name) ∨ line.item = .verbatim ("call " ++ name) := by
  rw [Line.unindented legible inside] at reads
  cases item : line.item with
  | instr i =>
    rw [item] at legible reads
    exact .inl (congrArg _ (Instr.eq_call_of_text legible reads))
  | verbatim text =>
    rw [item] at reads
    exact .inr (congrArg _ reads)
  | procedure other => exact absurd item (inside other)
  | label | comment | endProcedure =>
    rw [item] at reads
    simp only [Item.written, Label.text, List.append_assoc] at reads
    exact absurd reads (Bytes.ne_call (by decide) _ name)
  | blank =>
    rw [item] at reads
    cases reads

inductive Program.LineOf (program : Program) (needed : List Bytes) : Line → Prop
  | header {line : Line} (member : line ∈ Lower.header.lines) : LineOf program needed line
  | last : LineOf program needed ⟨0, .verbatim "END program"⟩
  | title {f : Function} : LineOf program needed ⟨0, .comment f.text⟩
  | opens {f : Function} : LineOf program needed ⟨0, .procedure f.name⟩
  | closes {f : Function} : LineOf program needed ⟨0, .endProcedure f.name⟩
  | blank : LineOf program needed ⟨0, .blank⟩
  | inside {f : Function} {line : Line} (member : f ∈ program.functions) (implemented : f.isImplemented = true)
      (used : f.name ∈ needed) (deep : 0 < line.indent)
      (calls : ∀ name, line.item = .instr (.call name) → name ∈ f.calls)
      (orderly : line.item.isOrderly false f.paramBytes = true) : LineOf program needed line

namespace Program

variable {program : Program} {settings : Settings} {needed : List Bytes}

variable {line : Line} {name : Bytes}

theorem block_lines (isTable : IsTable program.functions) (noAssembly : program.hasAssembly = false)
    (member : f ∈ program.functions) (implemented : f.body = some (.block pos rows cleanup)) (start : Nat) :
    ∃ inside, (Lower.procedure settings start f (.block pos rows cleanup)).lines =
        [⟨0, .comment f.text⟩, ⟨0, .procedure f.name⟩] ++ inside ++ [⟨0, .endProcedure f.name⟩, ⟨0, .blank⟩] ∧
      ∀ line ∈ inside, line.Obeys ⟨false, fun _ => True, (· ∈ Stmt.callsAll rows)⟩ f.paramBytes 1 := by
  obtain ⟨_, frame, _, _, keeps, accepts⟩ := isTable.accepted f member _ implemented
  have plain : Stmt.anyAssembly rows = false :=
    (Stmt.anyAssembly_singleton _).symm.trans (anyAssembly_eq_false noAssembly member implemented)
  have settled := accepts.of_block.settled (p := ⟨false, fun _ => True, (· ∈ Stmt.callsAll rows)⟩)
    (fun g known => program.popped_of_keeps isTable keeps known) (fun _ _ => ⟨fun _ _ => trivial, fun _ => trivial⟩)
    ⟨.nil, fun _ _ => trivial, nofun, fun _ _ _ _ _ _ => trivial, fun _ => id, fun has => plain.symm.trans has⟩ (Lower.bodySite settings start f).inBlock trivial nofun
  obtain ⟨inside, shape, tidy⟩ := Lower.procedure_tidy trivial (Nat.le_refl 1) (settled.block_tidy (fun _ _ => trivial) pos)
  exact ⟨inside, shape, tidy.obeys⟩

theorem lineOf_of_mem (isTable : IsTable program.functions) (bodies : BodiesRead env program.functions)
    (noAssembly : program.hasAssembly = false) (linked : program.reachable = .ok needed)
    (member : line ∈ (program.generate settings).lines) : program.LineOf needed line := by
  rw [generate_lines linked] at member
  rcases List.mem_append.mp member with isHeader | isCode
  · exact .header isHeader
  · obtain ⟨before, after, shape⟩ := List.append_of_mem isCode
    have all : Lower.EmitsAll settings needed 0 program.functions :=
      Lower.functions_emitsAll (fun f member body implemented => procedure_fine isTable member implemented) 0
    cases all.lines before line after shape with
    | last => exact .last
    | @inside _ early late _ _ start f body emits inside =>
      obtain ⟨isFunction, implemented⟩ := emits.implemented
      obtain ⟨calls, frame, n, entry, exit, _, _, _, _, read⟩ := bodies f isFunction body implemented
      obtain ⟨rows, cleanup, rfl⟩ := Rule.block_isBlock read
      obtain ⟨inner, whole, obeys⟩ := block_lines isTable noAssembly isFunction implemented start
      have isLine : line ∈ (Lower.procedure settings start f (.block entry.pos rows cleanup)).lines := by simp [inside]
      rw [whole] at isLine
      simp only [List.mem_append, List.mem_cons, List.not_mem_nil, or_false] at isLine
      rcases isLine with ((rfl | rfl) | isInner) | (rfl | rfl)
      · exact .title
      · exact .opens
      · refine .inside isFunction (by simp [Function.isImplemented, implemented]) (by simpa using emits.used)
          (obeys line isInner).deep (fun name isCall => ?_) (obeys line isInner).orderly
        rw [calls, mem_distinct]
        exact ((obeys line isInner).formed _ isCall).calls name rfl
      · exact .closes
      · exact .blank

theorem LineOf.opens_of_text (lineOf : program.LineOf needed line) (isName : name ≠ []) (isWord : 32 ∉ name)
    (reads : line.text = name ++ " proc") :
    line.item = .procedure name ∨ name = "endp" ∧ line.item = .endProcedure "proc" := by
  have cut : Bytes.cut? 32 line.text = some (name, utf8 "proc") := by
    rw [reads]
    exact Bytes.cut?_append isWord _
  cases lineOf with
  | header member =>
    have none : Lower.header.lines.all (fun line => !(utf8 " proc").isSuffixOf line.text) = true := by decide
    have other := List.all_eq_true.mp none line member
    have ends : (utf8 " proc").isSuffixOf (name ++ utf8 " proc") = true :=
      List.isSuffixOf_iff_suffix.mpr (List.suffix_append name _)
    rw [reads, ends] at other
    cases other
  | last => cases cut
  | title => cases cut
  | @opens f =>
    have shape : Line.text ⟨0, .procedure f.name⟩ = f.name ++ utf8 " proc" := rfl
    rw [shape] at reads
    rw [List.append_cancel_right reads]
    exact .inl rfl
  | @closes f =>
    have shape : Line.text ⟨0, .endProcedure f.name⟩ = utf8 "endp" ++ 32 :: f.name := rfl
    rw [shape, Bytes.cut?_append (by decide)] at cut
    obtain ⟨rfl, named⟩ := Prod.mk.inj (Option.some.inj cut)
    exact .inr ⟨rfl, by rw [named]⟩
  | blank => cases cut
  | inside _ _ _ deep _ orderly =>
    rw [Line.text_eq] at cut
    split at cut
    · rename_i isBlank
      rw [isBlank] at orderly
      cases orderly
    · obtain ⟨more, shape⟩ : ∃ more, 4 * line.indent = more + 1 := ⟨4 * line.indent - 1, by omega⟩
      rw [shape, Bytes.spaces, List.replicate_succ] at cut
      exact absurd (Prod.mk.inj (Option.some.inj cut)).1.symm isName

theorem LineOf.isLegible (lineOf : program.LineOf needed line) : line.item.isLegible = true := by
  cases lineOf with
  | header member => exact header_isLegible line member
  | last => decide
  | title | opens | closes | blank => rfl
  | inside _ _ _ _ _ orderly => exact Item.isLegible_of_isOrderly orderly

theorem LineOf.needs_of_call (isTable : IsTable program.functions) (linked : program.reachable = .ok needed)
    (lineOf : program.LineOf needed line) (isCall : line.item = .instr (.call name)) : program.Needs name := by
  cases lineOf with
  | header member => exact absurd isCall (Lower.ne_instr_of_header member _)
  | last | title | opens | closes | blank => cases isCall
  | inside member implemented used _ calls _ =>
    exact .call ((mem_reachable_iff linked _).mp used) (isTable.find?_eq member) implemented (calls name isCall)

theorem LineOf.needs_of_text (isTable : IsTable program.functions) (linked : program.reachable = .ok needed)
    (lineOf : program.LineOf needed line) (inside : ∀ other, line.item ≠ .procedure other)
    (reads : line.text.dropWhile (· = 32) = "call " ++ name) : program.Needs name := by
  rcases Line.eq_call_of_text lineOf.isLegible inside reads with isCall | isVerbatim
  · exact lineOf.needs_of_call isTable linked isCall
  · cases lineOf with
    | header member =>
      have calls : Lower.header.lines.all (fun line => line.item = .verbatim ("call " ++ entryName) ||
          match line.item with
          | .verbatim text => !(utf8 "call ").isPrefixOf text
          | _ => true) = true := by decide +kernel
      have isEntry := List.all_eq_true.mp calls line member
      have starts : (utf8 "call ").isPrefixOf (utf8 "call " ++ name) = true :=
        List.isPrefixOf_iff_prefix.mpr (List.prefix_append _ name)
      rw [isVerbatim] at isEntry
      simp only [starts, Bool.not_true, Bool.or_false, decide_eq_true_eq] at isEntry
      rw [List.append_cancel_left (Item.verbatim.inj isEntry)]
      exact .entry
    | last => cases isVerbatim
    | title | opens | closes | blank => cases isVerbatim
    | inside _ _ _ _ _ orderly =>
      rw [isVerbatim] at orderly
      cases orderly

def prune (program : Program) (needed : List Bytes) : Program := ⟨program.functions.filter (Lower.isNeeded needed)⟩

theorem find?_prune (used : name ∈ needed) : (program.prune needed).find? name = program.find? name := by
  rw [find?, find?, prune, List.find?_filter]
  refine congrArg (List.find? · program.functions) (funext fun f => ?_)
  by_cases same : f.name = name
  · simp [Lower.isNeeded, same, used]
  · simp [same]

theorem needs_prune_iff (linked : program.reachable = .ok needed) :
    (program.prune needed).Needs name ↔ program.Needs name := by
  have members := mem_reachable_iff linked
  constructor
  · intro needs
    induction needs with
    | entry => exact .entry
    | call _ found implemented called ih =>
      rw [find?_prune ((members _).mpr ih)] at found
      exact .call ih found implemented called
  · intro needs
    induction needs with
    | entry => exact .entry
    | call caller found implemented called ih =>
      rw [← find?_prune ((members _).mpr caller)] at found
      exact .call ih found implemented called

theorem generate_prune (linked : program.reachable = .ok needed) :
    ((program.prune needed).generate settings).lines = (program.generate settings).lines := by
  have members := mem_reachable_iff linked
  obtain ⟨entry, starts⟩ : ∃ entry, program.StartsAt entry := by
    cases checked : program.checkEntry with
    | error error =>
      rw [reachable, checked] at linked
      cases linked
    | ok entry => exact ⟨entry, checkEntry_eq_ok.mp checked⟩
  have keeps : (program.prune needed).StartsAt entry := by
    refine ⟨?_, starts.noParams, starts.returnsNothing, starts.implemented⟩
    rw [find?_prune ((members _).mpr .entry), starts.found]
  obtain ⟨others, relinked, _, isNeeded⟩ := exists_reachable keeps fun name needs => by
    rw [needs_prune_iff linked] at needs
    obtain ⟨f, found, implemented⟩ := provides_of_reachable linked needs
    exact ⟨f, by rw [find?_prune ((members _).mpr needs), found], implemented⟩
  have same (name : Bytes) : name ∈ others ↔ name ∈ needed := by
    rw [isNeeded, needs_prune_iff linked, members]
  rw [generate_lines relinked, generate_lines linked, Lower.functions_congr same, prune, Lower.functions_lines_filter]

theorem openedProcedures_header : openedProcedures Lower.header.lines = [] := rfl

variable (settings : Settings) (isTable : IsTable program.functions) (noAssembly : program.hasAssembly = false)
  (linked : program.reachable = .ok needed)

include isTable noAssembly linked

theorem openedProcedures_generate :
    openedProcedures (program.generate settings).lines = (program.functions.map (·.name)).filter needed.contains := by
  have implemented : ∀ f ∈ program.functions, Lower.isEmitted needed f = needed.contains f.name := by
    intro f member
    cases used : needed.contains f.name with
    | false => exact Lower.isEmitted_of_left (Or.inr used)
    | true =>
      have needs := (mem_reachable_iff linked f.name).mp (by simpa using used)
      obtain ⟨g, found, isImplemented⟩ := provides_of_reachable linked needs
      cases (isTable.find?_eq member).symm.trans found
      rw [Lower.isEmitted, used, isImplemented, Bool.and_true]
  rw [generate_lines linked, openedProcedures_append, openedProcedures_header, List.nil_append, Lower.functions_opens
    fun f member body implemented => settled_of_noAssembly settings isTable noAssembly member implemented,
    List.filter_congr implemented, List.filter_map]
  rfl

theorem nodup_openedProcedures : (openedProcedures (program.generate settings).lines).Nodup := by
  rw [openedProcedures_generate settings isTable noAssembly linked]
  exact isTable.distinct.filter _

theorem mem_openedProcedures_iff (name : Bytes) :
    name ∈ openedProcedures (program.generate settings).lines ↔ program.Needs name := by
  have members := mem_reachable_iff linked
  rw [openedProcedures_generate settings isTable noAssembly linked, List.mem_filter]
  constructor
  · intro opened
    exact (members name).mp (by simpa using opened.2)
  · intro needs
    obtain ⟨f, found, _⟩ := provides_of_reachable linked needs
    refine ⟨?_, by simpa using (members name).mpr needs⟩
    rw [← name_of_find? found]
    exact List.mem_map_of_mem (List.mem_of_find?_eq_some found)

omit isTable noAssembly linked

theorem reachable_of_generate {settings : Settings} (succeeds : (program.generate settings).problem = none) :
    ∃ needed, program.reachable = .ok needed := by
  cases linked : program.reachable with
  | error error =>
    rw [generate, linked] at succeeds
    cases succeeds
  | ok needed => exact ⟨needed, rfl⟩

structure EmitsExactly (program : Program) (settings : Settings) (mentioned needed : List Bytes) : Prop where
  reached : ∀ name, name ∈ needed ↔ program.Needs name
  tracked : ∀ f ∈ program.functions, ∀ body, f.body = some body → f.calls = distinct body.calls
  ordered : openedProcedures (program.generate settings).lines = (distinct mentioned).filter needed.contains
  once : ∀ name, program.Needs name → (openedProcedures (program.generate settings).lines).count name = 1
  opens : ∀ line ∈ (program.generate settings).lines, ∀ name : Bytes, name ≠ [] → 32 ∉ name → line.text = name ++ " proc" →
    line.item = .procedure name ∨ name = "endp" ∧ line.item = .endProcedure "proc"
  calls : ∀ line ∈ (program.generate settings).lines, ∀ name, line.item = .instr (.call name) → program.Needs name
  /-- No line but the first one of a procedure reads like a call of anything else. -/
  reads : ∀ line ∈ (program.generate settings).lines, (∀ other, line.item ≠ .procedure other) → ∀ name,
    line.text.dropWhile (· = 32) = "call " ++ name → program.Needs name
  warnings : (program.generate settings).warnings =
    if settings.warnings .unusedFunction then
      (program.functions.filter (Lower.isUnused needed)).map unusedWarning
    else []
  pruned : ((program.prune needed).generate settings).lines = (program.generate settings).lines

end Program

/-- A listing has one procedure for each function that can be reached from the entry, in the order of the source, and none
for the others; what cannot be reached has no influence on it. -/
theorem emits_exactly {env : Env} {program : Program} {settings : Settings}
    (parsed : (parse env).program = .ok program) (noAssembly : program.hasAssembly = false)
    (succeeds : (program.generate settings).problem = none) :
    ∃ mentioned needed last, ReadThrough env program mentioned last ∧ program.reachable = .ok needed ∧
      program.EmitsExactly settings mentioned needed := by
  obtain ⟨needed, linked⟩ := Program.reachable_of_generate succeeds
  obtain ⟨mentioned, last, through⟩ := readThrough_of_parse parsed
  have isTable := parse_isTable parsed
  have opened := Program.openedProcedures_generate settings isTable noAssembly linked
  have lineOf {line : Line} (member : line ∈ (program.generate settings).lines) : program.LineOf needed line :=
    Program.lineOf_of_mem isTable through.bodiesRead noAssembly linked member
  refine ⟨mentioned, needed, last, through, linked, Program.mem_reachable_iff linked,
    fun f member body implemented => (through.bodiesRead f member body implemented).calls,
    by rw [opened, through.map_name], ?_, ?_, ?_, ?_, ?_, Program.generate_prune linked⟩
  · intro name needs
    exact List.count_eq_one_of_mem (Program.nodup_openedProcedures settings isTable noAssembly linked)
      ((Program.mem_openedProcedures_iff settings isTable noAssembly linked name).mpr needs)
  · intro line member name isName isWord reads
    exact (lineOf member).opens_of_text isName isWord reads
  · intro line member name isCall
    exact (lineOf member).needs_of_call isTable linked isCall
  · intro line member inside name reads
    exact (lineOf member).needs_of_text isTable linked inside reads
  · rw [Program.generate, linked]
    exact Lower.functions_warnings (fun f member body implemented => Program.procedure_fine isTable member implemented) 0

def partlyUsed : Env where
  source :=
    { lines := #["int twice(int n); int idle(int n) \x7b return idle(n); \x7d",
        "void main() \x7b int a = twice(2); \x7d int twice(int n) \x7b return n + n; \x7d"]
      origins := #["partly.cb", "partly.cb"] }
  settings := {}

theorem emits_exactly_partlyUsed :
    ∃ program mentioned needed last, (parse partlyUsed).program = .ok program ∧ program.hasAssembly = false ∧
      (program.generate partlyUsed.settings).problem = none ∧ ReadThrough partlyUsed program mentioned last ∧
      program.reachable = .ok needed ∧ program.EmitsExactly partlyUsed.settings mentioned needed := by
  have accepted : (parse partlyUsed).program.toOption.any (fun program =>
      !program.hasAssembly && (program.generate partlyUsed.settings).problem.isNone) = true := by decide +kernel
  obtain ⟨program, parsed, fine⟩ := exists_of_any accepted
  simp only [Bool.and_eq_true, Bool.not_eq_true', Option.isNone_iff_eq_none] at fine
  obtain ⟨mentioned, needed, last, through, linked, exactly⟩ := emits_exactly parsed fine.1 fine.2
  exact ⟨program, mentioned, needed, last, parsed, fine.1, fine.2, through, linked, exactly⟩

end Cb
