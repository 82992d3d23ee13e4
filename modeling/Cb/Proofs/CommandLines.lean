import Cb.CommandLine.Parse
import Cb.Proofs.Texts

/-! Command lines as lists of settings. What an argument means depends on the names, the short forms and the kinds of
the flags, never on what they hold. So an accepted command line is read once into settings and other arguments, and each
flag then holds what the settings made of it; and settings that are written out as arguments are read back. -/

namespace Cb

theorem find?_of_pairwise {apart : α → α → Prop} {p : α → Bool} {items : List α} (pairwise : items.Pairwise apart)
    (member : x ∈ items) (holds : p x = true) (other : ∀ a, apart a x → p a = false) : items.find? p = some x := by
  induction items with
  | nil => cases member
  | cons a items ih =>
    rw [List.pairwise_cons] at pairwise
    rcases List.mem_cons.mp member with rfl | later
    · exact List.find?_cons_of_pos holds
    · rw [List.find?_cons_of_neg (by simp [other a (pairwise.1 x later)])]
      exact ih pairwise.2 later

namespace FlagValue

def turnsOn (given : Bytes) : Bool := given.isEmpty || boolean? given = some true

/-- A text holds the last value given to it and a list all of them; of a switch, the last value decides. -/
def holding (given : List Bytes) : FlagValue → FlagValue
  | .text value => .text (given.getLast?.getD value)
  | .list items => .list (items ++ given)
  | .switch on => .switch ((given.getLast?.map turnsOn).getD on)

def Admits (given : Bytes) (value : FlagValue) : Prop :=
  value.isSwitch = true → given = [] ∨ (boolean? given).isSome = true

theorem isSwitch_holding (given : List Bytes) (value : FlagValue) : (value.holding given).isSwitch = value.isSwitch := by
  cases value <;> rfl

theorem holding_nil (value : FlagValue) : value.holding [] = value := by cases value <;> simp [holding]

theorem holding_append (first later : List Bytes) (value : FlagValue) :
    value.holding (first ++ later) = (value.holding first).holding later := by
  cases value with
  | list items => simp [holding]
  | text | switch => cases last : later.getLast? <;> simp [holding, List.getLast?_append, last]

theorem take_of_admits {value : FlagValue} (admits : value.Admits given) : value.take given = .ok (value.holding [given]) := by
  cases value with
  | text _ => rfl
  | list _ => rfl
  | switch on =>
    cases given with
    | nil => rfl
    | cons b rest =>
      have isSome := (admits rfl).resolve_left (by simp)
      obtain ⟨truth, isTruth⟩ := Option.isSome_iff_exists.mp isSome
      cases truth <;> simp [take, holding, turnsOn, isTruth]

theorem admits_of_take {value : FlagValue} (taken : value.take given = .ok result) : value.Admits given := by
  intro isSwitch
  cases value with
  | text _ | list _ => cases isSwitch
  | switch on =>
    rw [take] at taken
    split at taken
    · exact .inl (List.isEmpty_iff.mp ‹_›)
    · split at taken
      · exact .inr (by simp [*])
      · cases taken

end FlagValue

namespace FlagSet

variable {set other : FlagSet}

def shape (flag : Flag) : Bytes × Bytes × Bool := (flag.name, flag.short, flag.value.isSwitch)

def Alike (set other : FlagSet) : Prop := other.flags.map shape = set.flags.map shape

abbrev Twins : Option Flag → Option Flag → Prop := Option.Rel fun twin flag => shape twin = shape flag

theorem Alike.find_twins (alike : set.Alike other) (p : Bytes × Bytes × Bool → Bool) :
    Twins (other.flags.find? (p ∘ shape)) (set.flags.find? (p ∘ shape)) := by
  have same : (other.flags.find? (p ∘ shape)).map shape = (set.flags.find? (p ∘ shape)).map shape := by
    rw [← List.find?_map, ← List.find?_map, alike]
  revert same
  cases set.flags.find? (p ∘ shape) <;> cases other.flags.find? (p ∘ shape) <;> simp

theorem Alike.find? (alike : set.Alike other) (name : Bytes) : Twins (other.find? name) (set.find? name) :=
  alike.find_twins (·.1 = name)

theorem Alike.findShort? (alike : set.Alike other) (short : Bytes) : Twins (other.findShort? short) (set.findShort? short) :=
  alike.find_twins (·.2.1 = short)

theorem readNamed_shape (same : shape twin = shape flag) (dashes : Bytes) (value : Option Bytes) :
    readNamed twin dashes value = readNamed flag dashes value := by
  simp only [shape, Prod.mk.injEq] at same
  simp [readNamed, same]

theorem Alike.readAttached (alike : set.Alike other) (letter : UInt8) (attached : Bytes) :
    other.readAttached letter attached = set.readAttached letter attached := by
  have twins := alike.findShort? [letter]
  rw [FlagSet.readAttached, FlagSet.readAttached]
  generalize other.findShort? [letter] = there, set.findShort? [letter] = here at twins
  cases twins with
  | none => rfl
  | some same =>
    simp only [shape, Prod.mk.injEq] at same
    simp [same]

theorem Alike.read (alike : set.Alike other) (arg : Bytes) : other.read arg = set.read arg := by
  have long (body : Bytes) : other.readLong body = set.readLong body := by
    have twins := alike.find? (nameAndValue body).1
    simp only [readLong]
    generalize other.find? _ = there, set.find? _ = here at twins
    cases twins with
    | none => rfl
    | some same => simp only [readNamed_shape same]
  have short (body : Bytes) : other.readShort body = set.readShort body := by
    have twins := alike.find? (nameAndValue body).1
    simp only [readShort, alike.readAttached]
    generalize other.find? _ = there, set.find? _ = here at twins
    cases twins with
    | none => rfl
    | some same => simp only [readNamed_shape same]
  simp only [FlagSet.read, long, short]

section Settings

def given (settings : List (Bytes × Bytes)) (name : Bytes) : List Bytes :=
  (settings.filter (·.1 = name)).map (·.2)

def holding (set : FlagSet) (settings : List (Bytes × Bytes)) : FlagSet :=
  { set with flags := set.flags.map fun flag => { flag with value := flag.value.holding (given settings flag.name) } }

def Accepts (set : FlagSet) (setting : Bytes × Bytes) : Prop :=
  ∃ flag ∈ set.flags, flag.name = setting.1 ∧ flag.value.Admits setting.2

def Distinct (set : FlagSet) : Prop := set.flags.Pairwise fun a b => a.name ≠ b.name

theorem alike_holding (set : FlagSet) (settings : List (Bytes × Bytes)) : set.Alike (set.holding settings) := by
  simp [Alike, holding, shape, Function.comp_def, FlagValue.isSwitch_holding]

theorem holding_nil (set : FlagSet) : set.holding [] = set := by simp [holding, given, FlagValue.holding_nil]

theorem holding_append (set : FlagSet) (first later : List (Bytes × Bytes)) :
    set.holding (first ++ later) = (set.holding first).holding later := by
  simp [holding, given, FlagValue.holding_append]

theorem value?_holding (set : FlagSet) (settings : List (Bytes × Bytes)) (name : Bytes) :
    (set.holding settings).value? name = (set.value? name).map (·.holding (given settings name)) := by
  rw [value?, value?, find?, holding, List.find?_map, Option.map_map, Option.map_map]
  cases found : set.find? name with
  | none => simp_all [find?, Function.comp_def]
  | some flag =>
    have named : flag.name = name := by simpa using List.find?_some found
    simp_all [find?, Function.comp_def]

def turnedOn (settings : List (Bytes × Bytes)) (name : Bytes) : Bool :=
  (given settings name).getLast?.any FlagValue.turnsOn

theorem isOn_holding (off : set.value? name = some (.switch false)) (settings : List (Bytes × Bytes)) :
    (set.holding settings).isOn name = turnedOn settings name := by
  rw [isOn, value?_holding, off, Option.map_some, turnedOn, FlagValue.holding]
  cases (given settings name).getLast? <;> simp

theorem Alike.distinct (alike : set.Alike other) (distinct : set.Distinct) : other.Distinct := by
  have names (set : FlagSet) : set.Distinct ↔ (set.flags.map shape).Pairwise fun a b => a.1 ≠ b.1 := by
    rw [List.pairwise_map]
    rfl
  rwa [names, alike, ← names]

theorem Alike.accepts (alike : set.Alike other) (setting : Bytes × Bytes) : other.Accepts setting ↔ set.Accepts setting := by
  have shapes (set : FlagSet) : set.Accepts setting ↔ ∃ kind ∈ set.flags.map shape, kind.1 = setting.1 ∧
      (kind.2.2 = true → setting.2 = [] ∨ (boolean? setting.2).isSome = true) := by
    constructor
    · rintro ⟨flag, member, rest⟩
      exact ⟨shape flag, List.mem_map_of_mem member, rest⟩
    · rintro ⟨kind, isKind, rest⟩
      obtain ⟨flag, member, rfl⟩ := List.mem_map.mp isKind
      exact ⟨flag, member, rest⟩
  rw [shapes, alike, ← shapes]

theorem find?_of_mem (distinct : set.Distinct) (member : flag ∈ set.flags) : set.find? flag.name = some flag :=
  find?_of_pairwise distinct member (by simp) (by simp)

theorem give_of_mem (distinct : set.Distinct) (member : flag ∈ set.flags) (admits : flag.value.Admits value) :
    set.give flag.name value = .ok (set.holding [(flag.name, value)]) := by
  rw [give, value?, find?_of_mem distinct member]
  simp only [Option.map_some, FlagValue.take_of_admits admits, Except.map, replace, holding, Except.ok.injEq,
    FlagSet.mk.injEq, and_true]
  refine List.map_congr_left fun twin isTwin => ?_
  by_cases same : twin.name = flag.name
  · obtain rfl : twin = flag := by
      have := find?_of_mem distinct isTwin
      rwa [same, find?_of_mem distinct member, Option.some.injEq, eq_comm] at this
    simp [given]
  · simp [given, same, Ne.symm same, FlagValue.holding_nil]

theorem Alike.give (alike : set.Alike current) (distinct : current.Distinct) (accepts : set.Accepts (name, value)) :
    current.give name value = .ok (current.holding [(name, value)]) := by
  obtain ⟨flag, member, rfl, admits⟩ := (alike.accepts _).mpr accepts
  exact give_of_mem distinct member admits

theorem give_ok (distinct : set.Distinct) (gives : set.give name value = .ok changed) :
    set.Accepts (name, value) ∧ changed = set.holding [(name, value)] := by
  have accepts : set.Accepts (name, value) := by
    rw [FlagSet.give] at gives
    split at gives
    · cases gives
    · rename_i held known
      obtain ⟨flag, found, rfl⟩ := Option.map_eq_some_iff.mp known
      cases taken : flag.value.take value with
      | error _ => simp [taken, Except.map] at gives
      | ok result =>
        exact ⟨flag, List.mem_of_find?_eq_some found, by simpa using List.find?_some found, FlagValue.admits_of_take taken⟩
  exact ⟨accepts, Except.ok.inj (gives.symm.trans (Alike.give rfl distinct accepts))⟩

end Settings

section Reading

inductive Reads (set : FlagSet) : List Bytes → List (Bytes × Bytes) → List Bytes → Prop
  | nil : Reads set [] [] []
  | stop (reads : set.read arg = .stop) : Reads set (arg :: rest) [] rest
  | positional (reads : set.read arg = .positional) (later : Reads set rest settings others) :
    Reads set (arg :: rest) settings (arg :: others)
  | give (reads : set.read arg = .give name value) (later : Reads set rest settings others) :
    Reads set (arg :: rest) ((name, value) :: settings) others
  | giveNext (reads : set.read arg = .giveNext name written) (later : Reads set rest settings others) :
    Reads set (arg :: value :: rest) ((name, value) :: settings) others

variable {args : List Bytes}

theorem Reads.parseFrom (reads : set.Reads args settings others) (alike : set.Alike current) (distinct : current.Distinct)
    (accepts : ∀ setting ∈ settings, set.Accepts setting) :
    current.parseFrom args = ({ current.holding settings with args := current.args ++ others }, none) := by
  induction reads generalizing current with
  | nil => simp [FlagSet.parseFrom, holding_nil]
  | stop reads => simp [FlagSet.parseFrom, alike.read, reads, holding_nil]
  | @positional arg _ _ _ reads _ ih =>
    simp only [FlagSet.parseFrom, alike.read, reads]
    rw [@ih { current with args := current.args ++ [arg] } alike distinct accepts]
    simp [holding]
  | @give _ name value _ settings _ reads _ ih | @giveNext _ name _ _ settings _ value reads _ ih =>
    rw [List.forall_mem_cons] at accepts
    have held := current.alike_holding [(name, value)]
    simp only [FlagSet.parseFrom, alike.read, reads, alike.give distinct accepts.1]
    rw [ih (Eq.trans held alike) (held.distinct distinct) accepts.2, ← holding_append]
    rfl

theorem reads_of_parseFrom (alike : set.Alike current) (distinct : current.Distinct)
    (accepted : (current.parseFrom args).2 = none) :
    ∃ settings others, set.Reads args settings others ∧ ∀ setting ∈ settings, set.Accepts setting := by
  fun_induction FlagSet.parseFrom current args with
  | case1 => exact ⟨[], [], .nil, by simp⟩
  | case2 current arg rest reads ih =>
    obtain ⟨settings, others, later, accepts⟩ := ih alike distinct accepted
    exact ⟨settings, _, .positional (alike.read _ ▸ reads) later, accepts⟩
  | case3 current arg rest reads => exact ⟨[], rest, .stop (alike.read _ ▸ reads), by simp⟩
  | case4 => cases accepted
  | case5 current arg rest name value reads changed gives ih =>
    obtain ⟨accepts, rfl⟩ := give_ok distinct gives
    have held := current.alike_holding [(name, value)]
    obtain ⟨settings, others, later, rest⟩ := ih (Eq.trans held alike) (held.distinct distinct) accepted
    refine ⟨_, _, .give (alike.read _ ▸ reads) later, ?_⟩
    exact List.forall_mem_cons.mpr ⟨(alike.accepts _).mp accepts, rest⟩
  | case6 => cases accepted
  | case7 => cases accepted
  | case8 current arg name written reads value later changed gives ih =>
    obtain ⟨accepts, rfl⟩ := give_ok distinct gives
    have held := current.alike_holding [(name, value)]
    obtain ⟨settings, others, later, rest⟩ := ih (Eq.trans held alike) (held.distinct distinct) accepted
    refine ⟨_, _, .giveNext (alike.read _ ▸ reads) later, ?_⟩
    exact List.forall_mem_cons.mpr ⟨(alike.accepts _).mp accepts, rest⟩
  | case9 => cases accepted

theorem Reads.parse (reads : set.Reads args settings others) (distinct : set.Distinct)
    (accepts : ∀ setting ∈ settings, set.Accepts setting) :
    set.parse args = ({ set.holding settings with args := others }, none) := by
  have fresh : set.Alike { set with args := [] } := rfl
  exact reads.parseFrom fresh distinct accepts

theorem reads_of_parse (distinct : set.Distinct) (accepted : set.parse args = (result, none)) :
    ∃ settings others, set.Reads args settings others ∧ result = { set.holding settings with args := others } := by
  have fresh : set.Alike { set with args := [] } := rfl
  obtain ⟨settings, others, reads, accepts⟩ := reads_of_parseFrom fresh distinct (congrArg Prod.snd accepted)
  exact ⟨settings, others, reads, congrArg Prod.fst (accepted.symm.trans (reads.parse distinct accepts))⟩

end Reading

end FlagSet

end Cb
