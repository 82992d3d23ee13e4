import Cb.Lower.Reachable
import Mathlib.Data.List.Perm.Subperm

/-! The names that a program needs: the least set with the entry that is closed under calls. The search for it
takes at most one round for each function, and finds it or a name in it that has no code. -/

namespace Cb.Program

/-- The entry is needed, and so is what the implemented functions among the needed ones call. -/
inductive Needs (program : Program) : Bytes → Prop
  | entry : Needs program entryName
  | call {name callee : Bytes} {f : Function} (caller : Needs program name) (found : program.find? name = some f)
      (implemented : f.isImplemented = true) (called : callee ∈ f.calls) : Needs program callee

def Provides (program : Program) (name : Bytes) : Prop :=
  ∃ f, program.find? name = some f ∧ f.isImplemented = true

inductive Blames (program : Program) : LinkError → Bytes → Prop
  | notDefined {name : Bytes} (missing : program.find? name = none) : Blames program (.notDefined name) name
  | notImplemented {name : Bytes} {f : Function} (found : program.find? name = some f)
      (bodiless : f.isImplemented = false) : Blames program (.notImplemented name) name

structure StartsAt (program : Program) (entry : Function) : Prop where
  found : program.find? entryName = some entry
  noParams : entry.params = []
  returnsNothing : entry.returns = .void
  implemented : entry.isImplemented = true

inductive Rounds (program : Program) : Nat → List Bytes → List Function → Prop
  | start {entry : Function} (checked : program.checkEntry = .ok entry) : Rounds program 0 [entryName] [entry]
  | next {count : Nat} {seen later : List Bytes} {f : Function} {waiting found : List Function}
      (before : Rounds program count seen (f :: waiting)) (taken : program.discover seen f.calls = .ok (later, found)) :
      Rounds program (count + 1) later (waiting ++ found)

inductive ComesTo (program : Program) : Except LinkError (List Bytes) → Prop
  | refused {error : LinkError} (checked : program.checkEntry = .error error) : ComesTo program (.error error)
  | done {count : Nat} {names : List Bytes} (rounds : Rounds program count names []) : ComesTo program (.ok names)
  | stuck {count : Nat} {seen : List Bytes} {f : Function} {waiting : List Function} {error : LinkError}
      (rounds : Rounds program count seen (f :: waiting)) (missing : program.discover seen f.calls = .error error) :
      ComesTo program (.error error)

variable {program : Program}

variable {names seen : List Bytes} {entry : Function} {error : LinkError} {name : Bytes}

theorem Blames.not_provides (blames : program.Blames error name) : ¬ program.Provides name := by
  rintro ⟨f, found, implemented⟩
  cases blames with
  | notDefined missing => simp [found] at missing
  | notImplemented same bodiless =>
    cases found.symm.trans same
    simp [implemented] at bodiless

theorem name_of_find? (found : program.find? name = some f) : f.name = name := by
  simpa using List.find?_some found

theorem checkEntry_eq_ok : program.checkEntry = .ok entry ↔ program.StartsAt entry := by
  constructor
  · intro checked
    rw [checkEntry] at checked
    split at checked
    · cases checked
    · rename_i f found
      split at checked
      · cases checked
      · split at checked
        · cases checked
        · split at checked
          · cases checked
          · cases checked
            exact ⟨found, by simp_all, by simp_all, by simp_all⟩
  · rintro ⟨found, noParams, returnsNothing, implemented⟩
    simp [checkEntry, found, noParams, returnsNothing, implemented]

structure Discovers (program : Program) (seen names later : List Bytes) (found : List Function) : Prop where
  grown : later = seen ++ found.map (·.name)
  provided : ∀ f ∈ found, program.find? f.name = some f ∧ f.isImplemented = true
  called : ∀ f ∈ found, f.name ∈ names
  distinct : later.Nodup
  all : ∀ name ∈ names, name ∈ later

theorem discover_ok (distinct : seen.Nodup) (taken : program.discover seen names = .ok (later, found)) :
    program.Discovers seen names later found := by
  induction names generalizing seen later found with
  | nil =>
    cases taken
    exact ⟨by simp, nofun, nofun, distinct, nofun⟩
  | cons name names ih =>
    rw [discover] at taken
    split at taken
    · rename_i known
      obtain ⟨grown, provided, called, unique, all⟩ := ih distinct taken
      refine ⟨grown, provided, fun f member => List.mem_cons_of_mem _ (called f member), unique, ?_⟩
      rintro other (_ | ⟨_, member⟩)
      · rw [grown]
        exact List.mem_append_left _ (by simpa using known)
      · exact all other member
    · rename_i unknown
      split at taken
      · cases taken
      · rename_i callee isCallee
        split at taken
        · cases taken
        · rename_i implemented
          have fresh : (seen ++ [name]).Nodup := by
            simpa [List.nodup_append, distinct] using fun old member (same : old = name) =>
              unknown (by simpa [same] using member)
          cases others : program.discover (seen ++ [name]) names with
          | error error =>
            rw [others] at taken
            cases taken
          | ok reply =>
            rw [others] at taken
            cases taken
            obtain ⟨grown, provided, called, unique, all⟩ := ih fresh others
            have named := name_of_find? isCallee
            refine ⟨by simp [grown, named], ?_, ?_, unique, ?_⟩
            · rintro f (_ | ⟨_, member⟩)
              · exact ⟨by rw [named]; exact isCallee, by simpa using implemented⟩
              · exact provided f member
            · rintro f (_ | ⟨_, member⟩)
              · simp [named]
              · exact List.mem_cons_of_mem _ (called f member)
            · rintro other (_ | ⟨_, member⟩)
              · simp [grown]
              · exact all other member

theorem discover_error (missing : program.discover seen names = .error error) :
    ∃ name ∈ names, program.Blames error name := by
  induction names generalizing seen with
  | nil => cases missing
  | cons name names ih =>
    have later {seen : List Bytes} (failed : program.discover seen names = .error error) :
        ∃ other ∈ name :: names, program.Blames error other := by
      obtain ⟨other, member, blames⟩ := ih failed
      exact ⟨other, List.mem_cons_of_mem _ member, blames⟩
    rw [discover] at missing
    split at missing
    · exact later missing
    · split at missing
      · rename_i isMissing
        cases missing
        exact ⟨name, by simp, .notDefined isMissing⟩
      · rename_i callee isCallee
        split at missing
        · rename_i bodiless
          cases missing
          exact ⟨name, by simp, .notImplemented isCallee (by simpa using bodiless)⟩
        · cases others : program.discover (seen ++ [name]) names with
          | error failed =>
            rw [others] at missing
            cases missing
            exact later others
          | ok reply =>
            rw [others] at missing
            cases missing

structure Searched (program : Program) (count : Nat) (seen : List Bytes) (waiting : List Function) : Prop where
  counted : seen.length = count + waiting.length
  distinct : seen.Nodup
  entry : entryName ∈ seen
  needed : ∀ name ∈ seen, program.Needs name
  provided : ∀ name ∈ seen, program.Provides name
  waits : ∀ f ∈ waiting, f.name ∈ seen ∧ program.find? f.name = some f
  visited : ∀ name ∈ seen, ∀ f, program.find? name = some f → f ∈ waiting ∨ ∀ callee ∈ f.calls, callee ∈ seen

theorem Searched.start (starts : program.StartsAt entry) : program.Searched 0 [entryName] [entry] := by
  have named := name_of_find? starts.found
  refine ⟨rfl, by simp, by simp, ?_, ?_, ?_, ?_⟩
  · simpa using Needs.entry
  · simpa using ⟨entry, starts.found, starts.implemented⟩
  · simpa [named] using starts.found
  · intro name member f found
    rw [List.mem_singleton.mp member, starts.found] at found
    cases found
    simp

theorem Searched.next (searched : program.Searched count seen (f :: waiting))
    (taken : program.discover seen f.calls = .ok (later, found)) :
    program.Searched (count + 1) later (waiting ++ found) := by
  obtain ⟨grown, provided, called, distinct, all⟩ := discover_ok searched.distinct taken
  obtain ⟨isSeen, isFound⟩ := searched.waits f (by simp)
  obtain ⟨g, same, implemented⟩ := searched.provided f.name isSeen
  cases isFound.symm.trans same
  have cases_of {name : Bytes} (member : name ∈ later) : name ∈ seen ∨ ∃ g ∈ found, g.name = name := by
    simpa [grown] using member
  have kept {name : Bytes} (member : name ∈ seen) : name ∈ later := by
    rw [grown]
    exact List.mem_append_left _ member
  refine ⟨?_, distinct, kept searched.entry, ?_, ?_, ?_, ?_⟩
  · have before := searched.counted
    simp only [grown, List.length_append, List.length_map, List.length_cons] at before ⊢
    omega
  · intro name member
    rcases cases_of member with old | ⟨g, isNew, rfl⟩
    · exact searched.needed name old
    · exact .call (searched.needed f.name isSeen) isFound implemented (called g isNew)
  · intro name member
    rcases cases_of member with old | ⟨g, isNew, rfl⟩
    · exact searched.provided name old
    · exact ⟨g, provided g isNew⟩
  · intro g member
    rcases List.mem_append.mp member with old | isNew
    · obtain ⟨isOld, known⟩ := searched.waits g (by simp [old])
      exact ⟨kept isOld, known⟩
    · exact ⟨by simpa [grown] using Or.inr ⟨g, isNew, rfl⟩, (provided g isNew).1⟩
  · intro name member g isName
    rcases cases_of member with old | ⟨h, isNew, rfl⟩
    · rcases searched.visited name old g isName with waits | closed
      · rcases List.mem_cons.mp waits with rfl | waits
        · exact .inr all
        · exact .inl (List.mem_append_left _ waits)
      · exact .inr fun callee isCallee => kept (closed callee isCallee)
    · rw [(provided h isNew).1] at isName
      cases isName
      exact .inl (List.mem_append_right _ isNew)

namespace Rounds

variable {count : Nat} {seen : List Bytes} {waiting : List Function}

theorem searched (rounds : program.Rounds count seen waiting) : program.Searched count seen waiting := by
  induction rounds with
  | start checked => exact .start (checkEntry_eq_ok.mp checked)
  | next _ taken ih => exact ih.next taken

theorem count_le (rounds : program.Rounds count seen waiting) : count + waiting.length ≤ program.functions.length := by
  have searched := rounds.searched
  have known : seen ⊆ program.functions.map (·.name) := by
    intro name member
    obtain ⟨f, found, _⟩ := searched.provided name member
    rw [← name_of_find? found]
    exact List.mem_map_of_mem (List.mem_of_find?_eq_some found)
  have fewer := (List.subperm_of_subset searched.distinct known).length_le
  rw [List.length_map] at fewer
  rw [← searched.counted]
  exact fewer

theorem comesTo (rounds : program.Rounds count seen waiting) (enough : program.functions.length < limit + count) :
    program.ComesTo (program.visit limit seen waiting) := by
  induction limit generalizing count seen waiting with
  | zero =>
    have fewer := rounds.count_le
    omega
  | succ limit ih =>
    cases waiting with
    | nil => exact .done rounds
    | cons f waiting =>
      rw [visit]
      cases taken : program.discover seen f.calls with
      | error error => exact .stuck rounds taken
      | ok reply => exact ih (.next rounds taken) (by omega)

theorem mem_iff (rounds : program.Rounds count names []) (name : Bytes) :
    name ∈ names ↔ program.Needs name := by
  have searched := rounds.searched
  constructor
  · exact searched.needed name
  · intro needs
    induction needs with
    | entry => exact searched.entry
    | call _ found _ called isSeen =>
      rcases searched.visited _ isSeen _ found with waits | closed
      · cases waits
      · exact closed _ called

end Rounds

theorem reachable_comesTo (program : Program) : program.ComesTo program.reachable := by
  rw [reachable]
  cases checked : program.checkEntry with
  | error error => exact .refused checked
  | ok entry => exact (Rounds.start checked).comesTo (by omega)

theorem reachable_ok (linked : program.reachable = .ok names) : ∃ count, program.Rounds count names [] := by
  have outcome := program.reachable_comesTo
  rw [linked] at outcome
  cases outcome with
  | done rounds => exact ⟨_, rounds⟩

theorem mem_reachable_iff (linked : program.reachable = .ok names) (name : Bytes) :
    name ∈ names ↔ program.Needs name := by
  obtain ⟨_, rounds⟩ := reachable_ok linked
  exact rounds.mem_iff name

theorem provides_of_reachable (linked : program.reachable = .ok names) (needs : program.Needs name) :
    program.Provides name := by
  obtain ⟨_, rounds⟩ := reachable_ok linked
  exact rounds.searched.provided name ((rounds.mem_iff name).mpr needs)

theorem blames_of_reachable (starts : program.StartsAt entry) (failed : program.reachable = .error error) :
    ∃ name, program.Needs name ∧ program.Blames error name := by
  have outcome := program.reachable_comesTo
  rw [failed] at outcome
  cases outcome with
  | refused checked =>
    rw [checkEntry_eq_ok.mpr starts] at checked
    cases checked
  | @stuck _ _ f _ _ rounds missing =>
    have searched := rounds.searched
    obtain ⟨isSeen, found⟩ := searched.waits f (by simp)
    obtain ⟨g, same, implemented⟩ := searched.provided f.name isSeen
    cases found.symm.trans same
    obtain ⟨name, called, blames⟩ := discover_error missing
    exact ⟨name, .call (searched.needed f.name isSeen) found implemented called, blames⟩

theorem exists_reachable (starts : program.StartsAt entry)
    (provided : ∀ name, program.Needs name → program.Provides name) :
    ∃ names, program.reachable = .ok names ∧ names.Nodup ∧ ∀ name, name ∈ names ↔ program.Needs name := by
  cases linked : program.reachable with
  | error error =>
    obtain ⟨name, needs, blames⟩ := blames_of_reachable starts linked
    exact absurd (provided name needs) blames.not_provides
  | ok names =>
    obtain ⟨count, rounds⟩ := reachable_ok linked
    exact ⟨names, rfl, rounds.searched.distinct, rounds.mem_iff⟩

structure LinksExactly (program : Program) : Prop where
  ends : ∀ count seen waiting, program.Rounds count seen waiting → count + waiting.length ≤ program.functions.length
  unlimited : program.ComesTo program.reachable
  complete : ∀ entry, program.StartsAt entry → (∀ name, program.Needs name → program.Provides name) →
    ∃ names, program.reachable = .ok names ∧ names.Nodup ∧ ∀ name, name ∈ names ↔ program.Needs name
  incomplete : ∀ entry, program.StartsAt entry → ¬ (∀ name, program.Needs name → program.Provides name) →
    ∃ error name, program.reachable = .error error ∧ program.Needs name ∧ program.Blames error name

/-- The search for needed functions ends. It finds all and only those that can be reached from the entry, or names one of
them that has no body or does not exist. -/
theorem links_exactly (program : Program) : program.LinksExactly := by
  refine ⟨fun count seen waiting => Rounds.count_le, program.reachable_comesTo, fun entry => exists_reachable, ?_⟩
  intro entry starts missing
  cases linked : program.reachable with
  | error error =>
    obtain ⟨name, needs, blames⟩ := blames_of_reachable starts linked
    exact ⟨error, name, rfl, needs, blames⟩
  | ok names => exact absurd (fun name => provides_of_reachable linked) missing

def calling (name : Bytes) (calls : List Bytes) : Function :=
  { name, returns := .void, params := [], body := some .empty, calls }

def evenOdd : Program :=
  ⟨[calling "odd" ["even"], calling "main" ["even", "odd", "even"], calling "idle" ["odd"], calling "even" ["odd", "odd"]]⟩

def halfLinked : Program :=
  ⟨[calling "main" ["first"], { name := "second", returns := .void, params := [] }, calling "first" ["main", "second"]]⟩

theorem links_exactly_evenOdd :
    (∃ names, evenOdd.reachable = .ok names ∧ names.Nodup ∧ ∀ name, name ∈ names ↔ evenOdd.Needs name) ∧
      ∃ error name, halfLinked.reachable = .error error ∧ halfLinked.Needs name ∧ halfLinked.Blames error name := by
  constructor
  · have linked : evenOdd.reachable = .ok ["main", "even", "odd"] := by decide +kernel
    exact (links_exactly evenOdd).complete _ ⟨rfl, rfl, rfl, rfl⟩ fun name => provides_of_reachable linked
  · have first : halfLinked.Needs "first" := .call .entry rfl rfl (by decide +kernel)
    have second : halfLinked.Needs "second" := .call first rfl rfl (by decide +kernel)
    refine (links_exactly halfLinked).incomplete _ ⟨rfl, rfl, rfl, rfl⟩ fun provided => ?_
    obtain ⟨f, found, implemented⟩ := provided _ second
    cases found
    cases implemented

end Cb.Program
