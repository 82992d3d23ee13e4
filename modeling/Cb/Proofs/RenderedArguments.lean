import Cb.Proofs.CommandLines

/-! Settings written out as arguments. Whichever way each of them is written, and in whatever order, the flags end up
with what was set. -/

namespace Cb

inductive Style where
  | joined
  | separate
  | short
  | attached
  | bare
deriving DecidableEq

structure Mention where
  style : Style
  flag : Flag
  value : Bytes := []

namespace Mention

def setting (mention : Mention) : Bytes × Bytes := (mention.flag.name, mention.value)

def render (mention : Mention) : List Bytes :=
  let long := byte '-' :: byte '-' :: mention.flag.name
  let short := byte '-' :: mention.flag.short
  match mention.style with
  | .joined => [long ++ byte '=' :: mention.value]
  | .separate => [long, mention.value]
  | .short => [short, mention.value]
  | .attached => [short ++ mention.value]
  | .bare => [long]

def Unnamed (set : FlagSet) (body : Bytes) : Prop := ∀ flag ∈ set.flags, flag.name ≠ body.takeWhile (· ≠ byte '=')

instance (set : FlagSet) (body : Bytes) : Decidable (Unnamed set body) :=
  inferInstanceAs (Decidable (∀ flag ∈ set.flags, _))

/-- The mention is of a flag of the set, with a value exactly if the flag is no switch. A short form must be there, and
what it is written with must not look like the name of a flag. -/
structure Fits (set : FlagSet) (mention : Mention) : Prop where
  member : mention.flag ∈ set.flags
  kind : mention.flag.value.isSwitch = true ↔ mention.style = .bare
  bare : mention.style = .bare → mention.value = []
  short : mention.style = .short → mention.flag.short ≠ [] ∧ Unnamed set mention.flag.short
  attached : mention.style = .attached →
    mention.flag.short ≠ [] ∧ mention.value ≠ [] ∧ Unnamed set (mention.flag.short ++ mention.value)

theorem Fits.accepts {set : FlagSet} {mention : Mention} (fits : mention.Fits set) : set.Accepts mention.setting :=
  ⟨mention.flag, fits.member, rfl, fun isSwitch => .inl (fits.bare (fits.kind.mp isSwitch))⟩

end Mention

namespace FlagSet

variable {set : FlagSet}

section Registration

def Apart (first later : Flag) : Prop :=
  first.name ≠ later.name ∧ (later.short ≠ [] → first.short ≠ later.short)

theorem apart_of_clash?_eq_none (free : set.clash? flag = none) :
    flag.name ≠ [] ∧ ∀ first ∈ set.flags, Apart first flag := by
  rw [clash?] at free
  split at free
  · cases free
  · split at free
    · cases free
    · split at free
      · cases free
      · simp_all [FlagSet.find?, FlagSet.findShort?, Apart]

theorem apart_of_registerAll (apart : set.flags.Pairwise Apart) (registers : (set.registerAll added).2 = none) :
    (set.flags ++ added).Pairwise Apart ∧ ∀ flag ∈ added, flag.name ≠ [] := by
  induction added generalizing set with
  | nil => simpa using apart
  | cons flag added ih =>
    have free : set.clash? flag = none := by
      cases clash : set.clash? flag with
      | none => rfl
      | some kind => cases kind <;> simp [registerAll, register, clash] at registers
    simp only [registerAll, register, free] at registers
    obtain ⟨filled, before⟩ := apart_of_clash?_eq_none free
    have extended : (set.flags ++ [flag]).Pairwise Apart := by
      simpa [List.pairwise_append, apart] using before
    have later := @ih { set with flags := set.flags ++ [flag] } extended registers
    rw [List.append_assoc] at later
    exact ⟨later.1, List.forall_mem_cons.mpr ⟨filled, later.2⟩⟩

end Registration

structure Regular (set : FlagSet) : Prop where
  apart : set.flags.Pairwise Apart
  filled : ∀ flag ∈ set.flags, flag.name ≠ []
  plain : ∀ flag ∈ set.flags, byte '=' ∉ flag.name
  short : ∀ flag ∈ set.flags, flag.short = [] ∨ ∃ letter ≠ byte '-', flag.short = [letter]

theorem Regular.distinct (regular : set.Regular) : set.Distinct := regular.apart.imp And.left

theorem Regular.findShort? (regular : set.Regular) (member : flag ∈ set.flags) (short : flag.short ≠ []) :
    set.findShort? flag.short = some flag :=
  find?_of_pairwise regular.apart member (by simp) fun first apart => by simp [apart.2 short]

theorem nameAndValue_fst (body : Bytes) : (nameAndValue body).1 = body.takeWhile (· ≠ byte '=') := by
  have cut : ((Bytes.cut? (byte '=') body).map (·.1)).getD body = body.takeWhile (· ≠ byte '=') := by
    induction body with
    | nil => rfl
    | cons first rest ih =>
      by_cases mark : first = byte '='
      · simp [Bytes.cut?, mark]
      · rw [List.takeWhile_cons_of_pos (by simpa using mark), ← ih]
        cases found : Bytes.cut? (byte '=') rest <;> simp [Bytes.cut?, mark, found]
  rw [← cut, nameAndValue]
  cases Bytes.cut? (byte '=') body <;> rfl

theorem Regular.read_joined (regular : set.Regular) (member : flag ∈ set.flags) (value : Bytes) :
    set.read (byte '-' :: byte '-' :: flag.name ++ byte '=' :: value) = .give flag.name value := by
  have parts : nameAndValue (flag.name ++ byte '=' :: value) = (flag.name, some value) := by
    rw [nameAndValue, Bytes.cut?_append (regular.plain flag member)]
  simp [read, readLong, parts, regular.filled flag member, find?_of_mem regular.distinct member, readNamed]

theorem Regular.read_long (regular : set.Regular) (member : flag ∈ set.flags) :
    set.read (byte '-' :: byte '-' :: flag.name) = readNamed flag "--" none := by
  have parts : nameAndValue flag.name = (flag.name, none) := by
    rw [nameAndValue, Bytes.cut?_of_absent (regular.plain flag member)]
  simp [read, readLong, parts, regular.filled flag member, find?_of_mem regular.distinct member]

theorem Regular.read_short (regular : set.Regular) (member : flag ∈ set.flags) (kind : flag.value.isSwitch = false)
    (filled : flag.short ≠ []) (unnamed : Mention.Unnamed set (flag.short ++ attached)) :
    set.read (byte '-' :: flag.short ++ attached) =
      if attached = [] then .giveNext flag.name ("-" ++ flag.short) else .give flag.name attached := by
  obtain ⟨letter, notDash, short⟩ := (regular.short flag member).resolve_left filled
  have found := regular.findShort? member filled
  have unknown : set.find? (nameAndValue (flag.short ++ attached)).1 = none := by
    rw [nameAndValue_fst]
    simpa [FlagSet.find?, Mention.Unnamed] using unnamed
  rw [short] at found unknown ⊢
  simp_all [read, readShort, readAttached]

theorem Regular.reads (regular : set.Regular) {mention : Mention} (fits : mention.Fits set)
    (later : set.Reads rest settings others) : set.Reads (mention.render ++ rest) (mention.setting :: settings) others := by
  obtain ⟨style, flag, value⟩ := mention
  obtain ⟨member, kind, bare, short, attached⟩ := fits
  dsimp only at member kind bare short attached
  cases style with
  | joined => exact .give (regular.read_joined member value) later
  | separate =>
    have named : readNamed flag "--" none = .giveNext flag.name ("--" ++ flag.name) := if_neg (by simp [kind])
    exact .giveNext ((regular.read_long member).trans named) later
  | bare =>
    obtain rfl := bare rfl
    have named : readNamed flag "--" none = .give flag.name [] := if_pos (by simp [kind])
    exact .give ((regular.read_long member).trans named) later
  | short =>
    obtain ⟨filled, unnamed⟩ := short rfl
    rw [← List.append_nil flag.short] at unnamed
    have reads := regular.read_short member (by simpa using kind) filled unnamed
    rw [List.append_nil, if_pos rfl] at reads
    exact .giveNext reads later
  | attached =>
    obtain ⟨filled, given, unnamed⟩ := attached rfl
    have reads := regular.read_short member (by simpa using kind) filled unnamed
    rw [if_neg given] at reads
    exact .give reads later

theorem Regular.parse (regular : set.Regular) {mentions : List Mention} (fit : ∀ mention ∈ mentions, mention.Fits set)
    (ends : set.Reads ending [] others) :
    set.parse (mentions.flatMap Mention.render ++ ending) =
      ({ set.holding (mentions.map Mention.setting) with args := others }, none) := by
  have reads : set.Reads (mentions.flatMap Mention.render ++ ending) (mentions.map Mention.setting) others := by
    induction mentions with
    | nil => exact ends
    | cons mention mentions ih =>
      rw [List.forall_mem_cons] at fit
      rw [List.flatMap_cons, List.append_assoc]
      exact regular.reads fit.1 (ih fit.2)
  have accepts : ∀ setting ∈ mentions.map Mention.setting, set.Accepts setting := by
    intro setting member
    obtain ⟨mention, isMention, rfl⟩ := List.mem_map.mp member
    exact (fit mention isMention).accepts
  exact reads.parse regular.distinct accepts

/-- Settings that are written out and then read. Every flag holds what its own settings say; after `--` the arguments are
taken as they are. -/
theorem parse_rendered (registers : (({} : FlagSet).registerAll set.flags).2 = none)
    (plain : ∀ flag ∈ set.flags, byte '=' ∉ flag.name)
    (short : ∀ flag ∈ set.flags, flag.short = [] ∨ ∃ letter ≠ byte '-', flag.short = [letter]) {mentions : List Mention}
    (fit : ∀ mention ∈ mentions, mention.Fits set) (positional : List Bytes) :
    let rendered := mentions.flatMap Mention.render
    let changed := set.holding (mentions.map Mention.setting)
    set.parse (rendered ++ utf8 "--" :: positional) = ({ changed with args := positional }, none) ∧
      set.parse rendered = ({ changed with args := [] }, none) := by
  obtain ⟨apart, filled⟩ := @apart_of_registerAll {} _ .nil registers
  have regular : set.Regular := ⟨apart, filled, plain, short⟩
  refine ⟨regular.parse fit (.stop rfl), ?_⟩
  simpa using regular.parse fit .nil

theorem parse_rendered_interleaved :
    let output : Flag := { name := "output", short := "o", initial := .text [] }
    let dirs : Flag := { name := "include", short := "I", initial := .list ["lib"] }
    let wait : Flag := { name := "wait", short := "w", initial := .switch false }
    let set : FlagSet := { flags := [output, dirs, wait] }
    let mentions : List Mention :=
      [⟨.joined, output, "a=b"⟩, ⟨.attached, dirs, "=x"⟩, ⟨.bare, wait, []⟩, ⟨.separate, dirs, "--wait"⟩,
        ⟨.short, output, "-I"⟩]
    (∀ mention ∈ mentions, mention.Fits set) ∧
    set.parse (mentions.flatMap Mention.render ++ utf8 "--" :: ["-w", "--"]) =
      ({ set.holding (mentions.map Mention.setting) with args := ["-w", "--"] }, none) ∧
    (set.holding (mentions.map Mention.setting)).flags.map (·.value) =
      [.text "-I", .list ["lib", "=x", "--wait"], .switch true] := by
  intro output dirs wait set mentions
  have fit : ∀ mention ∈ mentions, mention.Fits set := by
    intro mention member
    simp only [mentions, List.mem_cons, List.not_mem_nil, or_false] at member
    rcases member with rfl | rfl | rfl | rfl | rfl <;>
      exact ⟨by simp [set], by decide, by decide, by decide +kernel, by decide +kernel⟩
  refine ⟨fit, (parse_rendered (by decide +kernel) (by decide +kernel) ?_ fit _).1, by decide +kernel⟩
  intro flag member
  simp only [set, List.mem_cons, List.not_mem_nil, or_false] at member
  rcases member with rfl | rfl | rfl
  · exact .inr ⟨byte 'o', by decide, by decide⟩
  · exact .inr ⟨byte 'I', by decide, by decide⟩
  · exact .inr ⟨byte 'w', by decide, by decide⟩

end FlagSet

end Cb
