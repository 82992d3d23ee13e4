import Cb.Proofs.LowerCase
import Cb.Proofs.NeededProcedures
import Mathlib.Data.List.Perm.Basic

/-! The symbols that a listing defines: data names, the label of the entry and macros in its header, the labels of
its constructs, and its procedures. No two of them agree unless a procedure takes the name of another symbol. -/

namespace Cb

def directiveSymbol? (text : Bytes) : Option Bytes :=
  match Bytes.cut? 32 text with
  | some (name, rest) =>
    if [utf8 "dw ", utf8 "db ", utf8 "macro "].any (·.isPrefixOf rest) then some name else none
  | none => Bytes.before? ":" text

def Item.symbol? : Item → Option Bytes
  | .label l => some l.text
  | .procedure name => some name
  | .verbatim text => directiveSymbol? text
  | .instr _ | .comment _ | .endProcedure _ | .blank => none

def definedSymbols (lines : List Line) : List Bytes := lines.filterMap (·.item.symbol?)

theorem definedSymbols_append (first second : List Line) :
    definedSymbols (first ++ second) = definedSymbols first ++ definedSymbols second := List.filterMap_append

def dataNames : List Bytes :=
  ["__firstItemAddress", "__firstBlockNext", "__firstBlockSize", "__firstBlockPayload"].map utf8

def entryAndMacros : List Bytes := ["program", "push_byte", "pop_byte", "pop_bytes"].map utf8

theorem definedSymbols_header : definedSymbols Lower.header.lines = dataNames ++ entryAndMacros := by decide +kernel

theorem definedSymbols_perm (plain : ∀ line ∈ lines, ∀ text, line.item = .verbatim text → directiveSymbol? text = none) :
    (definedSymbols lines).Perm ((definedLabels lines).map Label.text ++ openedProcedures lines) := by
  induction lines with
  | nil => exact .nil
  | cons line rest ih =>
    have others := ih fun other member => plain other (by simp [member])
    cases item : line.item with
    | label l =>
      have symbols : definedSymbols (line :: rest) = l.text :: definedSymbols rest := by
        simp [definedSymbols, Item.symbol?, item]
      have labels : definedLabels (line :: rest) = l :: definedLabels rest := by
        simp [definedLabels, Item.label?, item]
      have procedures : openedProcedures (line :: rest) = openedProcedures rest := by
        simp [openedProcedures, Item.opens?, item]
      rw [symbols, labels, procedures]
      exact others.cons l.text
    | procedure name =>
      have symbols : definedSymbols (line :: rest) = name :: definedSymbols rest := by
        simp [definedSymbols, Item.symbol?, item]
      have labels : definedLabels (line :: rest) = definedLabels rest := by
        simp [definedLabels, Item.label?, item]
      have procedures : openedProcedures (line :: rest) = name :: openedProcedures rest := by
        simp [openedProcedures, Item.opens?, item]
      rw [symbols, labels, procedures]
      exact (others.cons name).trans List.perm_middle.symm
    | verbatim text =>
      have nothing := plain line (by simp) text item
      simpa [definedSymbols, definedLabels, openedProcedures, Item.symbol?, Item.label?, Item.opens?, item, nothing]
        using others
    | instr | comment | endProcedure | blank =>
      simpa [definedSymbols, definedLabels, openedProcedures, Item.symbol?, Item.label?, Item.opens?, item]
        using others

theorem ReadsOn.spelled (reads : ReadsOn env r names last) :
    ∀ name ∈ names, ∃ text, name = lower (Reader.leadingWord text) := by
  induction reads with
  | stop => exact nofun
  | function _ heading _ _ ih =>
    intro name member
    rcases List.mem_cons.mp member with rfl | later
    · exact Rule.heading_spelled heading
    · exact ih name later

theorem ReadThrough.spelled (through : ReadThrough env program names last) (member : f ∈ program.functions) :
    ∃ text, f.name = lower (Reader.leadingWord text) := by
  have isName : f.name ∈ distinct names := by
    rw [← through.map_name]
    exact List.mem_map_of_mem member
  exact through.inTurn.spelled f.name (mem_distinct.mp isName)

theorem lower_notMem_dataNames (word : Bytes) : lower word ∉ dataNames := by
  have raised : dataNames.all (fun name => lower name ≠ name) = true := by decide +kernel
  intro member
  have differs := List.all_eq_true.mp raised (lower word) member
  rw [lower_lower] at differs
  simp at differs

theorem Label.text_notMem_header (l : Label) : l.text ∉ dataNames ++ entryAndMacros := by
  have starts : (dataNames ++ entryAndMacros).all (fun name => name.head? ≠ some 108) = true := by decide +kernel
  intro member
  have differs := List.all_eq_true.mp starts l.text member
  rw [← List.append_nil l.text, l.head_text] at differs
  simp at differs

theorem nodup_symbols_iff {labels : List Label} (labelsOnce : (labels.map Label.text).Nodup)
    (proceduresOnce : procedures.Nodup) (spelled : ∀ name ∈ procedures, ∃ word, name = lower word) :
    (dataNames ++ entryAndMacros ++ (labels.map Label.text ++ procedures)).Nodup ↔
      ∀ name ∈ procedures, name ∉ entryAndMacros ∧ name ∉ labels.map Label.text := by
  have headerOnce : (dataNames ++ entryAndMacros).Nodup := by decide +kernel
  rw [List.nodup_append]
  constructor
  · rintro ⟨_, coded, fromHeader⟩ name member
    obtain ⟨_, _, apart⟩ := List.nodup_append.mp coded
    constructor
    · intro isTaken
      exact fromHeader name (by simp [isTaken]) name (by simp [member]) rfl
    · intro isTaken
      exact apart name isTaken name member rfl
  · intro free
    refine ⟨headerOnce, List.nodup_append.mpr ⟨labelsOnce, proceduresOnce, ?_⟩, ?_⟩
    · rintro text isLabel name member rfl
      exact (free text member).2 isLabel
    · rintro text inHeader name member rfl
      rcases List.mem_append.mp member with isLabel | isProcedure
      · obtain ⟨l, _, rfl⟩ := List.mem_map.mp isLabel
        exact l.text_notMem_header inHeader
      · rcases List.mem_append.mp inHeader with isData | isTaken
        · obtain ⟨word, rfl⟩ := spelled text isProcedure
          exact lower_notMem_dataNames word isData
        · exact (free text isProcedure).1 isTaken

namespace Program

variable {program : Program} {needed : List Bytes} (settings : Settings) (isTable : IsTable program.functions)
  (noAssembly : program.hasAssembly = false)

include isTable noAssembly

theorem eq_end_of_verbatim
    (member : line ∈ (Lower.functions settings needed 0 program.functions).lines)
    (isVerbatim : line.item = .verbatim text) : text = "END program" := by
  rcases mem_code isTable member with rfl | ⟨front, start, f, body, emits, inside⟩
  · cases isVerbatim
    rfl
  · obtain ⟨isFunction, implemented⟩ := emits.implemented
    have settled := settled_of_noAssembly settings isTable noAssembly isFunction implemented start
    have kind := Lower.procedure_orderly settled line inside
    rw [isVerbatim] at kind
    rcases kind with orderly | isOpening | isClosing | isBlank
    · cases orderly
    · cases isOpening
    · cases isClosing
    · cases isBlank

theorem definedSymbols_generate (linked : program.reachable = .ok needed) :
    (definedSymbols (program.generate settings).lines).Perm (dataNames ++ entryAndMacros ++
      ((definedLabels (program.generate settings).lines).map Label.text ++
        openedProcedures (program.generate settings).lines)) := by
  rw [generate_lines linked, definedSymbols_append, definedLabels_append, openedProcedures_append,
    definedSymbols_header, definedLabels_header, openedProcedures_header, List.nil_append, List.nil_append]
  refine List.Perm.append_left _ (definedSymbols_perm ?_)
  intro line member text isVerbatim
  rw [eq_end_of_verbatim settings isTable noAssembly member isVerbatim]
  decide +kernel

theorem nodup_definedLabels (linked : program.reachable = .ok needed) :
    ((definedLabels (program.generate settings).lines).map Label.text).Nodup := by
  have once : (definedLabels (program.generate settings).lines).Nodup :=
    List.nodup_iff_count_le_one.mpr (generate_unique isTable noAssembly linked)
  exact once.map fun first second same => Label.text_inj same

omit isTable noAssembly

structure DefinesSymbols (program : Program) (lines : List Line) : Prop where
  opened : ∀ name, name ∈ openedProcedures lines ↔ program.Needs name
  symbols : (definedSymbols lines).Perm (dataNames ++ entryAndMacros ++
    ((definedLabels lines).map Label.text ++ openedProcedures lines))
  distinct_iff : (definedSymbols lines).Nodup ↔
    ∀ name, program.Needs name → name ∉ entryAndMacros ∧ name ∉ (definedLabels lines).map Label.text

end Program

/-- The symbols that a listing defines are those of the entry, the data, the macros, the labels and the procedures. They are
distinct unless a function has the name of one of the others. -/
theorem symbols_distinct_iff {env : Env} {program : Program} {settings : Settings}
    (parsed : (parse env).program = .ok program) (noAssembly : program.hasAssembly = false)
    (succeeds : (program.generate settings).problem = none) :
    program.DefinesSymbols (program.generate settings).lines := by
  obtain ⟨needed, linked⟩ := Program.reachable_of_generate succeeds
  have isTable := parse_isTable parsed
  obtain ⟨_, _, through⟩ := readThrough_of_parse parsed
  have opened := Program.mem_openedProcedures_iff settings isTable noAssembly linked
  have symbols := Program.definedSymbols_generate settings isTable noAssembly linked
  have spelled : ∀ name ∈ openedProcedures (program.generate settings).lines, ∃ word, name = lower word := by
    intro name member
    obtain ⟨f, found, _⟩ := Program.provides_of_reachable linked ((opened name).mp member)
    obtain ⟨text, spelled⟩ := through.spelled (List.mem_of_find?_eq_some found)
    exact ⟨_, by rw [← Program.name_of_find? found, spelled]⟩
  refine ⟨opened, symbols, ?_⟩
  rw [symbols.nodup_iff, nodup_symbols_iff (Program.nodup_definedLabels settings isTable noAssembly linked)
    (Program.nodup_openedProcedures settings isTable noAssembly linked) spelled]
  simp only [opened]

def labelLike : Env where
  source :=
    { lines := #["void label_9_endif() \x7b\x7d", "void main() \x7b while (0) \x7b if (1) label_9_endif(); \x7d \x7d"]
      origins := #["labels.cb", "labels.cb"] }
  settings := {}

theorem symbols_distinct_iff_labelLike :
    ∃ program, (parse labelLike).program = .ok program ∧ program.hasAssembly = false ∧
      (program.generate labelLike.settings).problem = none ∧
      program.DefinesSymbols (program.generate labelLike.settings).lines ∧
      (definedSymbols (program.generate labelLike.settings).lines).Nodup := by
  have accepted : (parse labelLike).program.toOption.any (fun program =>
      !program.hasAssembly && (program.generate labelLike.settings).problem.isNone &&
        decide (definedSymbols (program.generate labelLike.settings).lines).Nodup) = true := by decide +kernel
  obtain ⟨program, parsed, fine⟩ := exists_of_any accepted
  simp only [Bool.and_eq_true, Bool.not_eq_true', Option.isNone_iff_eq_none, decide_eq_true_eq] at fine
  obtain ⟨⟨noAssembly, succeeds⟩, distinct⟩ := fine
  exact ⟨program, parsed, noAssembly, succeeds, symbols_distinct_iff parsed noAssembly succeeds, distinct⟩

def entryTaken : Env where
  source :=
    { lines := #["void program() \x7b\x7d", "void main() \x7b program(); \x7d"]
      origins := #["entry.cb", "entry.cb"] }
  settings := {}

theorem symbols_clash_entryTaken :
    ∃ program, (parse entryTaken).program = .ok program ∧ program.hasAssembly = false ∧
      (program.generate entryTaken.settings).problem = none ∧
      (definedSymbols (program.generate entryTaken.settings).lines).count (utf8 "program") = 2 := by
  have accepted : (parse entryTaken).program.toOption.any (fun program =>
      !program.hasAssembly && (program.generate entryTaken.settings).problem.isNone &&
        decide ((definedSymbols (program.generate entryTaken.settings).lines).count (utf8 "program") = 2)) = true := by
    decide +kernel
  obtain ⟨program, parsed, fine⟩ := exists_of_any accepted
  simp only [Bool.and_eq_true, Bool.not_eq_true', Option.isNone_iff_eq_none, decide_eq_true_eq] at fine
  exact ⟨program, parsed, fine.1.1, fine.1.2, fine.2⟩

end Cb
