import Cb.Proofs.CommandLines
import Cb.Proofs.LowerCase
import Cb.Settings.Groups

/-! Flags for warnings and features, on the command line and in the source. In the source they are applied one after the
other, so that the last one counts. The command line only notes which ones were given, and turning a thing off wins
wherever it stands; so the two agree exactly if whatever is turned off at all is turned off last. -/

namespace Cb

section Words

def IsPlain (text : Bytes) : Prop := text ≠ [] ∧ ∀ b ∈ text, b < 0x80 ∧ isBlank b.toNat = false

theorem gatherWords_run {run : Bytes} (visible : ∀ b ∈ run, isBlank b.toNat = false) (word rest : List Scalar) :
    gatherWords word ((run.map fun b => ⟨b.toNat, [b]⟩) ++ rest) =
      gatherWords ((run.map fun b => ⟨b.toNat, [b]⟩).reverse ++ word) rest := by
  induction run generalizing word with
  | nil => rfl
  | cons b run ih =>
    rw [List.forall_mem_cons] at visible
    simp [gatherWords, visible.1, ih visible.2]

theorem ofScalars_ascii (text : Bytes) : ofScalars (text.map fun b => ⟨b.toNat, [b]⟩) = text := by
  simp [ofScalars, List.flatMap_map]

theorem join_ascii (plain : ∀ part ∈ parts, IsPlain part) : ∀ b ∈ Bytes.join " " parts, b < 0x80 := by
  fun_induction Bytes.join (utf8 " ") parts with
  | case1 => simp
  | case2 part => exact fun b member => ((plain part (by simp)).2 b member).1
  | case3 part rest _ ih =>
    rw [List.forall_mem_cons] at plain
    have blank : ∀ b ∈ utf8 " ", b < 0x80 := by decide +kernel
    intro b member
    simp only [List.mem_append] at member
    obtain (here | here) | later := member
    · exact (plain.1.2 b here).1
    · exact blank b here
    · exact ih plain.2 b later

theorem words_join (plain : ∀ part ∈ parts, IsPlain part) : words (Bytes.join " " parts) = parts := by
  rw [words, scalars_ascii (by simpa using join_ascii plain)]
  fun_induction Bytes.join (utf8 " ") parts with
  | case1 => rfl
  | case2 part =>
    obtain ⟨filled, visible⟩ := plain part (by simp)
    have run := gatherWords_run (fun b member => (visible b member).2) [] []
    simp only [List.append_nil] at run
    rw [run]
    simp [gatherWords, filled, ofScalars_ascii]
  | case3 part rest _ ih =>
    rw [List.forall_mem_cons] at plain
    obtain ⟨⟨filled, visible⟩, later⟩ := plain
    have space : utf8 " " = [32] := by decide +kernel
    specialize ih later
    rw [List.append_assoc, List.map_append, gatherWords_run fun b member => (visible b member).2]
    rw [space] at ih ⊢
    simp [gatherWords, isBlank, filled, ofScalars_ascii, ih]

end Words

namespace FlagSet

def IsDashed (name : Bytes) : Prop := name ≠ [] ∧ name.head? ≠ some (byte '-') ∧ byte '=' ∉ name

theorem read_dashed (dashed : IsDashed name) (set : FlagSet) :
    set.read (byte '-' :: name) = set.readShort name ∧ nameAndValue name = (name, none) := by
  obtain ⟨filled, noDash, absent⟩ := dashed
  constructor
  · cases name with
    | nil => exact absurd rfl filled
    | cons first rest => simp_all [read]
  · simp [nameAndValue, Bytes.cut?_of_absent absent]

theorem read_switch {set : FlagSet} (dashed : IsDashed name) (known : set.value? name = some (.switch on)) :
    set.read (byte '-' :: name) = .give name [] := by
  obtain ⟨reads, parts⟩ := read_dashed dashed set
  obtain ⟨flag, found, value⟩ := Option.map_eq_some_iff.mp known
  rw [reads, readShort]
  have named : flag.name = name := by simpa using List.find?_some found
  simp [parts, found, readNamed, value, FlagValue.isSwitch, named]

theorem read_unknown {set : FlagSet} (dashed : IsDashed (letter :: rest)) (unknown : set.find? (letter :: rest) = none)
    (unknownShort : set.findShort? [letter] = none) :
    set.read (byte '-' :: letter :: rest) = .fault (.unknownShort [letter]) := by
  obtain ⟨reads, parts⟩ := read_dashed dashed set
  rw [reads, readShort]
  simp [parts, unknown, readAttached, unknownShort]

end FlagSet

namespace Toggle

def spelled (lead name : Bytes) (on : Bool) : Bytes := lead ++ (if on then [] else utf8 "no-") ++ name

def name : Toggle → Bytes
  | .warning w on => spelled "W" w.name on
  | .allWarnings on => spelled "W" "all" on
  | .feature f on => spelled "F" f.name on

def text (t : Toggle) : Bytes := byte '-' :: t.name

def isSingle : Toggle → Bool
  | .allWarnings _ => false
  | .warning _ _ | .feature _ _ => true

def onWarning (w : Warning) : Toggle → Option Bool
  | .warning v on => if v = w then some on else none
  | .allWarnings on => some on
  | .feature _ _ => none

def onFeature (f : Feature) : Toggle → Option Bool
  | .feature g on => if g = f then some on else none
  | .warning _ _ | .allWarnings _ => none

def all : List Toggle :=
  [true, false].flatMap fun on => .allWarnings on :: Warning.all.map (.warning · on) ++ Feature.all.map (.feature · on)

theorem mem_all (t : Toggle) : t ∈ all := by
  obtain ⟨w, on⟩ | on | ⟨f, on⟩ := t
  · cases w <;> cases on <;> decide
  · cases on <;> decide
  · cases f <;> cases on <;> decide

theorem parse?_text (t : Toggle) : parse? t.text = some t := by
  have every : ∀ t ∈ all, parse? t.text = some t := by decide +kernel
  exact every t (mem_all t)

theorem name_inj {t u : Toggle} (same : t.name = u.name) : t = u := by
  have := parse?_text t
  rw [text, same] at this
  exact Option.some.inj (this.symm.trans (parse?_text u))

theorem text_plain (t : Toggle) : IsPlain t.text := by
  have every : ∀ t ∈ all, t.text ≠ [] ∧ ∀ b ∈ t.text, b < 0x80 ∧ isBlank b.toNat = false := by decide +kernel
  exact every t (mem_all t)

theorem name_dashed (t : Toggle) : FlagSet.IsDashed t.name := by
  have every : ∀ t ∈ all, t.name ≠ [] ∧ t.name.head? ≠ some (byte '-') ∧ byte '=' ∉ t.name := by decide +kernel
  exact every t (mem_all t)

theorem mem_filterMap_iff {toggles : List Toggle} {toggle : Bool → Toggle}
    (tells : ∀ t ∈ toggles, about t = some on ↔ t = toggle on) : on ∈ toggles.filterMap about ↔ toggle on ∈ toggles := by
  rw [List.mem_filterMap]
  constructor
  · rintro ⟨t, member, told⟩
    exact (tells t member).mp told ▸ member
  · intro member
    exact ⟨_, member, (tells _ member).mpr rfl⟩

theorem mem_onWarning {toggles : List Toggle} (single : ∀ t ∈ toggles, t.isSingle = true) :
    on ∈ toggles.filterMap (onWarning w) ↔ .warning w on ∈ toggles := by
  refine mem_filterMap_iff fun t member => ?_
  cases t with
  | warning v given => simp [onWarning]
  | allWarnings given => exact absurd (single _ member) (by simp [isSingle])
  | feature f given => simp [onWarning]

theorem mem_onFeature {toggles : List Toggle} : on ∈ toggles.filterMap (onFeature f) ↔ .feature f on ∈ toggles := by
  refine mem_filterMap_iff fun t _ => ?_
  cases t <;> simp [onFeature]

def setting (t : Toggle) : Bytes × Bytes := (t.name, [])

theorem turnedOn_settings (toggles : List Toggle) (t : Toggle) :
    FlagSet.turnedOn (toggles.map setting) t.name = decide (t ∈ toggles) := by
  have mentions (value : Bytes) : value ∈ FlagSet.given (toggles.map setting) t.name ↔ t ∈ toggles ∧ value = [] := by
    simp only [FlagSet.given, List.filter_map, List.map_map, List.mem_map, List.mem_filter, Function.comp, setting]
    constructor
    · rintro ⟨u, ⟨member, named⟩, rfl⟩
      exact ⟨name_inj (of_decide_eq_true named) ▸ member, rfl⟩
    · rintro ⟨member, rfl⟩
      exact ⟨t, ⟨member, decide_eq_true rfl⟩, rfl⟩
  cases last : (FlagSet.given (toggles.map setting) t.name).getLast? with
  | none =>
    have none := mentions []
    rw [List.getLast?_eq_none_iff.mp last] at none
    simpa [FlagSet.turnedOn, last] using none
  | some value =>
    obtain ⟨member, rfl⟩ := (mentions value).mp (List.mem_of_getLast? last)
    simp [FlagSet.turnedOn, last, FlagValue.turnsOn, member]

end Toggle

open Toggle hiding setting

namespace Settings

theorem foldl_apply (s : Settings) (toggles : List Toggle) :
    toggles.foldl apply s =
      { s with
        warnings := fun w => (toggles.filterMap (onWarning w)).getLast?.getD (s.warnings w)
        features := fun f => (toggles.filterMap (onFeature f)).getLast?.getD (s.features f) } := by
  induction toggles generalizing s with
  | nil => rfl
  | cons t toggles ih =>
    rw [List.foldl_cons, ih]
    cases t with
    | warning v on =>
      simp only [apply, setWarning, List.filterMap_cons, onWarning, onFeature, Settings.mk.injEq,
        and_true, true_and]
      funext w
      by_cases same : v = w
      · simp [same, List.getLast?_cons]
      · simp [same, Ne.symm same]
    | allWarnings on => simp [apply, onWarning, onFeature, List.getLast?_cons]
    | feature g on =>
      simp only [apply, setFeature, List.filterMap_cons, onWarning, onFeature, Settings.mk.injEq, and_true]
      funext f
      by_cases same : g = f
      · simp [same, List.getLast?_cons]
      · simp [same, Ne.symm same]

theorem applyFlags_texts (s : Settings) (toggles : List Toggle) :
    s.applyFlags (toggles.map Toggle.text) = (toggles.foldl apply s, []) := by
  induction toggles generalizing s with
  | nil => rfl
  | cons t toggles ih =>
    rw [List.map_cons, applyFlags, parse?_text]
    exact ih (s.apply t)

theorem applyLine_texts (s : Settings) (toggles : List Toggle) :
    s.applyLine (Bytes.join " " (toggles.map Toggle.text)) = (toggles.foldl apply s, []) := by
  have plain : ∀ part ∈ toggles.map Toggle.text, IsPlain part := by
    intro part member
    obtain ⟨t, _, rfl⟩ := List.mem_map.mp member
    exact t.text_plain
  rw [applyLine, words_join plain, applyFlags_texts]

end Settings

namespace FlagSet

structure Offers (set : FlagSet) : Prop where
  single (t : Toggle) (one : t.isSingle = true) : ∃ on, set.value? t.name = some (.switch on)
  all (on : Bool) : set.find? (allWarnings on).name = none
  short : set.findShort? "W" = none

theorem Offers.read_all {set : FlagSet} (offers : set.Offers) (on : Bool) :
    set.read (allWarnings on).text = .fault (.unknownShort "W") := by
  have lead : utf8 "W" = [byte 'W'] := by decide +kernel
  have dashed := (allWarnings on).name_dashed
  have unknown := offers.all on
  have unknownShort := offers.short
  rw [Toggle.text]
  simp only [Toggle.name, Toggle.spelled, lead, List.cons_append, List.nil_append] at *
  exact read_unknown dashed unknown unknownShort

theorem Offers.read_single {set : FlagSet} (offers : set.Offers) {t : Toggle} (one : t.isSingle = true) :
    set.read t.text = .give t.name [] ∧ set.Accepts t.setting := by
  obtain ⟨on, known⟩ := offers.single t one
  obtain ⟨flag, found, value⟩ := Option.map_eq_some_iff.mp known
  have named : flag.name = t.name := by simpa using List.find?_some found
  exact ⟨read_switch t.name_dashed known, flag, List.mem_of_find?_eq_some found, named, fun _ => .inl rfl⟩

theorem Offers.reads {set : FlagSet} (offers : set.Offers) {toggles : List Toggle}
    (single : ∀ t ∈ toggles, t.isSingle = true) :
    set.Reads (toggles.map Toggle.text) (toggles.map Toggle.setting) [] ∧
      ∀ setting ∈ toggles.map Toggle.setting, set.Accepts setting := by
  induction toggles with
  | nil => exact ⟨.nil, by simp⟩
  | cons t toggles ih =>
    rw [List.forall_mem_cons] at single
    obtain ⟨reads, accepts⟩ := offers.read_single single.1
    exact ⟨.give reads (ih single.2).1, List.forall_mem_cons.mpr ⟨accepts, (ih single.2).2⟩⟩

theorem Offers.parseFrom_error {set current : FlagSet} (offers : set.Offers) (alike : set.Alike current)
    (distinct : current.Distinct) (toggles : List Toggle) :
    (current.parseFrom (toggles.map Toggle.text)).2 =
      if toggles.all isSingle then none else some (.unknownShort "W") := by
  induction toggles generalizing current with
  | nil => rfl
  | cons t toggles ih =>
    rw [List.map_cons]
    cases one : t.isSingle with
    | true =>
      obtain ⟨reads, accepts⟩ := offers.read_single one
      have held := current.alike_holding [t.setting]
      simp only [parseFrom, alike.read, reads, alike.give distinct accepts]
      refine (ih (Eq.trans held alike) (held.distinct distinct)).trans ?_
      simp [one]
    | false =>
      obtain ⟨w, on⟩ | on | ⟨f, on⟩ := t
      · cases one
      · simp [parseFrom, alike.read, offers.read_all, one]
      · cases one

end FlagSet

namespace Settings

theorem value?_flagSet (s : Settings) {t : Toggle} (one : t.isSingle = true) :
    (s.flagSet []).value? t.name = some (.switch false) := by
  have every : ∀ t ∈ Toggle.all, t.isSingle = true → (({} : Settings).flagSet []).value? t.name = some (.switch false) := by
    decide +kernel
  exact every t (mem_all t) one

theorem flagSet_distinct (s : Settings) : (s.flagSet []).Distinct := by
  have apart : (({} : Settings).flagSet []).flags.Pairwise fun a b => a.name ≠ b.name := by decide +kernel
  exact apart

theorem flagSet_offers (s : Settings) : (s.flagSet []).Offers where
  single t one := ⟨false, s.value?_flagSet one⟩
  all on := by
    have none : ∀ on, (({} : Settings).flagSet []).value? (allWarnings on).name = none := by decide +kernel
    exact Option.map_eq_none_iff.mp (none on)
  short := by
    have none : ((({} : Settings).flagSet []).findShort? "W").isNone = true := by decide +kernel
    exact Option.isNone_iff_eq_none.mp none

end Settings

/-- What is said about a thing ends with turning it off, if it is ever turned off. -/
def LastOff (said : List Bool) : Prop := false ∈ said → said.getLast? = some false

theorem off_wins_iff (said : List Bool) (before : Bool) :
    (!decide (false ∈ said) && (decide (true ∈ said) || before)) = said.getLast?.getD before ↔ LastOff said := by
  cases last : said.getLast? with
  | none => simp [List.getLast?_eq_none_iff.mp last, LastOff]
  | some on =>
    have member := List.mem_of_getLast? last
    cases on <;> simp [LastOff, last, member]

namespace Settings

theorem applySwitches_of_isOn (s : Settings) {set : FlagSet} {isOn : Toggle → Bool}
    (each : ∀ t : Toggle, t.isSingle = true → set.isOn t.name = isOn t) :
    s.applySwitches set =
      { s with
        warnings := fun w => !isOn (.warning w false) && (isOn (.warning w true) || s.warnings w)
        features := fun f => !isOn (.feature f false) && (isOn (.feature f true) || s.features f) } := by
  have warning (w : Warning) (on : Bool) := each (.warning w on) rfl
  have feature (f : Feature) (on : Bool) := each (.feature f on) rfl
  rw [applySwitches]
  simp only [← warning, ← feature]
  simp [switched, GroupEntry.onName, GroupEntry.offName, warningEntry, featureEntry, Toggle.name, Toggle.spelled]

theorem applySwitches_parse (s : Settings) {toggles : List Toggle} (single : ∀ t ∈ toggles, t.isSingle = true) :
    s.applySwitches ((s.flagSet []).parse (toggles.map Toggle.text)).1 =
      { s with
        warnings := fun w =>
          let said := toggles.filterMap (onWarning w)
          !decide (false ∈ said) && (decide (true ∈ said) || s.warnings w)
        features := fun f =>
          let said := toggles.filterMap (onFeature f)
          !decide (false ∈ said) && (decide (true ∈ said) || s.features f) } := by
  obtain ⟨reads, accepts⟩ := s.flagSet_offers.reads single
  rw [reads.parse s.flagSet_distinct accepts]
  simp only [mem_onWarning single, mem_onFeature]
  exact s.applySwitches_of_isOn fun t one =>
    (FlagSet.isOn_holding (s.value?_flagSet one) _).trans (turnedOn_settings toggles t)

/-- Flags on the command line and the same flags in the source. The source accepts all of them; the command line has no
flag for all warnings. Where both accept, the settings they make are the same exactly if every warning and every feature
that is turned off is turned off last. -/
theorem command_line_agrees_with_source_iff (s : Settings) (toggles : List Toggle) :
    let flags := toggles.map Toggle.text
    let parsed := (s.flagSet []).parse flags
    let read := s.applyLine (Bytes.join " " flags)
    read.2 = [] ∧
    parsed.2 = (if toggles.all Toggle.isSingle then none else some (.unknownShort "W")) ∧
    (parsed.2 = none → (s.applySwitches parsed.1 = read.1 ↔
      (∀ w, LastOff (toggles.filterMap (Toggle.onWarning w))) ∧ ∀ f, LastOff (toggles.filterMap (Toggle.onFeature f)))) := by
  intro flags parsed read
  have source : read = (toggles.foldl apply s, []) := s.applyLine_texts toggles
  have error : parsed.2 = if toggles.all Toggle.isSingle then none else some (.unknownShort "W") :=
    s.flagSet_offers.parseFrom_error rfl s.flagSet_distinct toggles
  refine ⟨by rw [source], error, fun accepted => ?_⟩
  have single : ∀ t ∈ toggles, t.isSingle = true := by
    rw [error] at accepted
    simpa using accepted
  rw [source, foldl_apply, applySwitches_parse s single]
  simp only [Settings.mk.injEq, and_true, funext_iff, off_wins_iff]
  exact And.comm

theorem command_line_differs_from_source :
    let flags : List Bytes := ["-Wno-truncation", "-Wtruncation"]
    let s : Settings := {}
    let parsed := (s.flagSet []).parse flags
    let read := s.applyLine (Bytes.join " " flags)
    parsed.2 = none ∧ read.2 = [] ∧
      (s.applySwitches parsed.1).warnings .truncation = false ∧ read.1.warnings .truncation = true := by
  decide +kernel

end Settings

end Cb
