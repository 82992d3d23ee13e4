import Cb.Compiler
import Cb.Proofs.FlagOrder
import Cb.Proofs.ProjectOrder

/-! The sources of a setting: the project, the command line and the flags in the source text, taken in this order. What
a later source says about a warning or a feature wins, and what no source names stays as it is by default. -/

namespace Cb

theorem Bytes.dropFront_outcomes (front text : Bytes) :
    after? front text = none ∧ dropFront front text = text ∨
      (after? front text).isSome = true ∧ text = front ++ dropFront front text := by
  rw [dropFront, after?]
  split
  · exact .inr ⟨rfl, List.prefix_iff_eq_append.mp (List.isPrefixOf_iff_prefix.mp ‹_›) |>.symm⟩
  · exact .inl ⟨rfl, rfl⟩

namespace Toggle

def ofFlag? (flag : Bytes) : Option Toggle := all.find? fun t => flag = t.text ∨ flag = t.name

theorem spelled_of_parts (kind : UInt8) (rest : Bytes) :
    spelled [kind] (Bytes.dropFront "no-" rest) (Bytes.after? "no-" rest).isNone = kind :: rest := by
  rcases Bytes.dropFront_outcomes "no-" rest with ⟨absent, whole⟩ | ⟨present, whole⟩
  · simp [spelled, absent, whole]
  · obtain ⟨name, isName⟩ := Option.isSome_iff_exists.mp present
    simpa [spelled, isName] using whole.symm

theorem name_of_parse? (parsed : parse? flag = some t) : t.name = Bytes.dropFront "-" flag := by
  have letterW : utf8 "W" = [byte 'W'] := by decide +kernel
  have letterF : utf8 "F" = [byte 'F'] := by decide +kernel
  rw [parse?] at parsed
  cases body : Bytes.dropFront "-" flag with
  | nil => simp [body] at parsed
  | cons kind rest =>
    rw [← spelled_of_parts kind rest]
    simp only [body] at parsed
    split at parsed
    · rename_i isW
      split at parsed
      · rename_i isAll
        cases parsed
        rw [name, isAll, letterW, isW]
      · obtain ⟨w, found, rfl⟩ := Option.map_eq_some_iff.mp parsed
        rw [name, (Warning.find?_eq_some_iff _ _).mp found, letterW, isW]
    · split at parsed
      · rename_i isF
        obtain ⟨f, found, rfl⟩ := Option.map_eq_some_iff.mp parsed
        rw [name, (Feature.find?_eq_some_iff _ _).mp found, letterF, isF]
      · cases parsed

theorem parse?_eq_some_iff (flag : Bytes) (t : Toggle) : parse? flag = some t ↔ flag = t.text ∨ flag = t.name := by
  constructor
  · intro parsed
    have isName := name_of_parse? parsed
    rcases Bytes.dropFront_outcomes "-" flag with ⟨_, whole⟩ | ⟨_, whole⟩
    · exact .inr (whole ▸ isName).symm
    · have dash : utf8 "-" = [byte '-'] := by decide +kernel
      rw [← isName, dash] at whole
      exact .inl whole
  · have every : ∀ t ∈ all, parse? t.name = some t := by decide +kernel
    rintro (rfl | rfl)
    · exact parse?_text t
    · exact every t (mem_all t)

theorem parse?_eq_ofFlag? (flag : Bytes) : parse? flag = ofFlag? flag := by
  cases spelled : ofFlag? flag with
  | some t =>
    rw [parse?_eq_some_iff]
    simpa using List.find?_some spelled
  | none =>
    rw [Option.eq_none_iff_forall_ne_some]
    intro t parsed
    have absent := List.find?_eq_none.mp spelled t (mem_all t)
    simp only [decide_eq_true_eq] at absent
    exact absent ((parse?_eq_some_iff flag t).mp parsed)

end Toggle

namespace Settings

theorem applyFlags_eq (s : Settings) (flags : List Bytes) :
    s.applyFlags flags =
      ((flags.filterMap Toggle.ofFlag?).foldl apply s, flags.filter fun flag => (Toggle.ofFlag? flag).isNone) := by
  induction flags generalizing s with
  | nil => rfl
  | cons flag flags ih =>
    rw [applyFlags, Toggle.parse?_eq_ofFlag?, List.filterMap_cons]
    cases spelled : Toggle.ofFlag? flag <;> simp [ih, spelled]

theorem foldl_applyLine (s : Settings) (pragmas : List Bytes) :
    pragmas.foldl (fun s line => (s.applyLine line).1) s =
      ((pragmas.flatMap words).filterMap Toggle.ofFlag?).foldl apply s := by
  simp only [applyLine, applyFlags_eq, List.filterMap_flatMap, List.foldl_flatMap]

end Settings

namespace Compiler

def flags : FlagSet := (command.flags.register Command.helpFlag).1

theorem flags_distinct : flags.Distinct := by
  rw [FlagSet.Distinct]
  decide +kernel

theorem value?_flags {t : Toggle} (one : t.isSingle = true) : flags.value? t.name = some (.switch false) := by
  have every : ∀ t ∈ Toggle.all, t.isSingle = true → flags.value? t.name = some (.switch false) := by decide +kernel
  exact every t (Toggle.mem_all t) one

theorem reads_of_start (accepted : command.start args = (started, .ok (.proceed inputs))) :
    ∃ settings, flags.Reads args settings inputs ∧ started.flags = { flags.holding settings with args := inputs } := by
  have registers : command.flags.register Command.helpFlag = (flags, none) := by
    have free : command.flags.clash? Command.helpFlag = none := by decide +kernel
    simp [flags, FlagSet.register, free]
  rw [Command.start, registers] at accepted
  cases parsed : flags.parse args with
  | mk parsedFlags error =>
    cases error with
    | some error => simp [parsed] at accepted
    | none =>
      obtain ⟨settings, others, reads, rfl⟩ := FlagSet.reads_of_parse flags_distinct parsed
      simp only [parsed, Prod.mk.injEq, Except.ok.injEq] at accepted
      obtain ⟨rfl, proceeds⟩ := accepted
      split at proceeds
      · cases proceeds
      · cases proceeds
        exact ⟨settings, reads, rfl⟩

end Compiler

namespace Settings

def onCommandLine (settings : List (Bytes × Bytes)) (toggle : Bool → Toggle) : Option Bool :=
  if FlagSet.turnedOn settings (toggle false).name then some false
  else if FlagSet.turnedOn settings (toggle true).name then some true
  else none

def inSource (flags : List Bytes) (about : Toggle → Option Bool) : Option Bool :=
  ((flags.filterMap Toggle.ofFlag?).filterMap about).getLast?

theorem getD_onCommandLine (settings : List (Bytes × Bytes)) (toggle : Bool → Toggle) (before : Bool) :
    (onCommandLine settings toggle).getD before = (!FlagSet.turnedOn settings (toggle false).name &&
      (FlagSet.turnedOn settings (toggle true).name || before)) := by
  rw [onCommandLine]
  cases FlagSet.turnedOn settings (toggle false).name <;> cases FlagSet.turnedOn settings (toggle true).name <;> rfl

theorem applySwitches_eq (s : Settings) (settings : List (Bytes × Bytes)) (others : List Bytes) :
    s.applySwitches { Compiler.flags.holding settings with args := others } =
      { s with
        warnings := fun w => (onCommandLine settings (.warning w)).getD (s.warnings w)
        features := fun f => (onCommandLine settings (.feature f)).getD (s.features f) } := by
  simp only [getD_onCommandLine]
  exact s.applySwitches_of_isOn fun t one => FlagSet.isOn_holding (Compiler.value?_flags one) settings

theorem applyProject_known (s : Settings) (known : project.Known) :
    (s.applyProject project).1.warnings = (fun w => (said Warning.name project.warnings w).getLast?.getD (s.warnings w)) ∧
      (s.applyProject project).1.features = fun f => (said Feature.name project.features f).getLast?.getD (s.features f) := by
  rw [applyProject_eq, takeOver_known Warning.find?_eq_some_iff known.1, takeOver_known Feature.find?_eq_some_iff known.2]
  exact ⟨rfl, rfl⟩

/-- Each warning and each feature is as the source says last, else as the command line says, else as the project says, and
else it has its default. -/
theorem later_sources_win (known : project.Known)
    (accepted : Compiler.command.start args = (started, .ok (.proceed inputs))) (pragmas : List Bytes) :
    let taken := ({} : Settings).applyProject project
    let final := pragmas.foldl (fun s line => (s.applyLine line).1) (taken.1.applySwitches started.flags)
    let flags := pragmas.flatMap words
    taken.2 = none ∧
    (∃ settings, Compiler.flags.Reads args settings inputs ∧
      (∀ w, final.warnings w =
        (inSource flags (Toggle.onWarning w)).getD ((onCommandLine settings (.warning w)).getD
          ((said Warning.name project.warnings w).getLast?.getD w.default))) ∧
      ∀ f, final.features f =
        (inSource flags (Toggle.onFeature f)).getD ((onCommandLine settings (.feature f)).getD
          ((said Feature.name project.features f).getLast?.getD f.default))) ∧
    ∀ (s : Settings) (line : Bytes),
      (s.applyLine line).2 = (words line).filter fun flag => (Toggle.ofFlag? flag).isNone := by
  intro taken final flags
  obtain ⟨settings, reads, isFlags⟩ := Compiler.reads_of_start accepted
  obtain ⟨warned, featured⟩ := applyProject_known {} known
  have whole : final = (flags.filterMap Toggle.ofFlag?).foldl apply (taken.1.applySwitches started.flags) :=
    foldl_applyLine _ pragmas
  rw [foldl_apply, isFlags, applySwitches_eq, warned, featured] at whole
  refine ⟨(applyProject_error_iff {} project).mpr known, ⟨settings, reads, fun w => ?_, fun f => ?_⟩, fun s line => ?_⟩
  · rw [whole]
    rfl
  · rw [whole]
    rfl
  · rw [applyLine, applyFlags_eq]

theorem later_sources_win_overridden :
    let project : Project := { warnings := [("extra", false), ("truncation", false)], features := [("asm", false)] }
    let args : List Bytes := ["-Wtruncation", "-o", "-Wno-truncation", "a.cb"]
    let pragmas : List Bytes := ["-Wno-all Wextra", "-Wbogus -Fasm"]
    let taken := ({} : Settings).applyProject project
    let (started, start) := Compiler.command.start args
    let final := pragmas.foldl (fun s line => (s.applyLine line).1) (taken.1.applySwitches started.flags)
    project.Known ∧ start = .ok (.proceed ["a.cb"]) ∧ taken.2 = none ∧
      final.warnings .extra = true ∧ final.warnings .truncation = false ∧ final.features .asm = true := by
  intro project args pragmas taken
  have known : project.Known := by
    constructor
    · exact List.forall_mem_cons.mpr ⟨⟨.extra, rfl⟩, List.forall_mem_cons.mpr ⟨⟨.truncation, rfl⟩, by simp⟩⟩
    · exact List.forall_mem_cons.mpr ⟨⟨.asm, rfl⟩, by simp⟩
  have accepted : (Compiler.command.start args).2 = .ok (.proceed ["a.cb"]) := by rfl
  have wins := later_sources_win known (Prod.ext rfl accepted) pragmas
  exact ⟨known, accepted, wins.1, by decide +kernel, by decide +kernel, by decide +kernel⟩

end Settings

end Cb
