import Cb.Settings.Project
import Mathlib.Logic.Basic

/-! The order of the entries of a project. Its warnings, its features and its macros are maps, so their entries come in
any order. While all names are known the order is of no account; but the first unknown name ends everything, and what
came before it stays. -/

namespace Cb

theorem filterMap_eq_of_perm {entries other : List (Bytes × β)} {pick : Bytes × β → Option γ}
    (distinct : (entries.map (·.1)).Nodup) (single : ∀ a b, (pick a).isSome → (pick b).isSome → a.1 = b.1)
    (perm : other.Perm entries) : other.filterMap pick = entries.filterMap pick := by
  have alone (entries : List (Bytes × β)) (distinct : (entries.map (·.1)).Nodup) :
      (entries.filterMap pick).Pairwise fun _ _ => False := by
    rw [List.pairwise_filterMap]
    refine (List.pairwise_map.mp distinct).imp fun {a b} differ x isX y isY => differ ?_
    exact single a b (by simp [isX]) (by simp [isY])
  refine List.Perm.eq_of_pairwise (fun _ _ _ _ absurd _ => absurd.elim) (alone _ ?_) (alone _ distinct) (perm.filterMap pick)
  exact (perm.map _).nodup_iff.mpr distinct

section Tables

variable {κ : Type} {find? : Bytes → Option κ} {name : κ → Bytes} {table : κ → Bool}
  {entries : List (Bytes × Bool)}

def said (name : κ → Bytes) (entries : List (Bytes × Bool)) (k : κ) : List Bool :=
  entries.filterMap fun entry => if name k = entry.1 then some entry.2 else none

theorem said_eq_of_perm {other : List (Bytes × Bool)} (distinct : (entries.map (·.1)).Nodup) (perm : other.Perm entries)
    (k : κ) : said name other k = said name entries k := by
  refine filterMap_eq_of_perm distinct (fun a b isA isB => ?_) perm
  simp only [Option.isSome_ite] at isA isB
  exact isA.symm.trans isB

variable [DecidableEq κ]

def takeOver (find? : Bytes → Option κ) (table : κ → Bool) : List (Bytes × Bool) → (κ → Bool) × Option Bytes
  | [] => (table, none)
  | (name, on) :: rest =>
    match find? name with
    | some k => takeOver find? (fun other => if other = k then on else table other) rest
    | none => (table, some name)

theorem takeOver_known (names : ∀ n k, find? n = some k ↔ name k = n)
    (known : ∀ entry ∈ entries, ∃ k, name k = entry.1) :
    takeOver find? table entries = (fun k => (said name entries k).getLast?.getD (table k), none) := by
  induction entries generalizing table with
  | nil => rfl
  | cons entry entries ih =>
    rw [List.forall_mem_cons] at known
    obtain ⟨⟨k, isName⟩, known⟩ := known
    simp only [takeOver, (names _ _).mpr isName, ih known, Prod.mk.injEq, and_true]
    funext other
    have same : other = k ↔ name other = entry.1 := by
      rw [← names, (names _ _).mpr isName, Option.some.injEq, eq_comm]
    rw [said, said, List.filterMap_cons]
    by_cases here : other = k
    · simp only [if_pos here, if_pos (same.mp here), List.getLast?_cons]
      rfl
    · simp only [if_neg here, if_neg (same.not.mp here)]

theorem takeOver_error_iff (names : ∀ n k, find? n = some k ↔ name k = n) :
    (takeOver find? table entries).2 = none ↔ ∀ entry ∈ entries, ∃ k, name k = entry.1 := by
  induction entries generalizing table with
  | nil => simp [takeOver]
  | cons entry entries ih =>
    rw [List.forall_mem_cons, takeOver]
    cases found : find? entry.1 with
    | none => simp [← names, found]
    | some k => simp [ih, ← names entry.1, found]

/-- Either all names are known, or all but one are and say what is set already. -/
def OrderFree (name : κ → Bytes) (table : κ → Bool) (entries : List (Bytes × Bool)) : Prop :=
  (∀ entry ∈ entries, ∃ k, name k = entry.1) ∨
    ∃ unknown, ∀ entry ∈ entries, entry.1 = unknown ∨ ∃ k, name k = entry.1 ∧ table k = entry.2

theorem takeOver_unknown (absent : ∀ k, name k ≠ entry.1) (names : ∀ n k, find? n = some k ↔ name k = n) :
    takeOver find? table (entry :: entries) = (table, some entry.1) := by
  have unknown : find? entry.1 = none := by
    rw [Option.eq_none_iff_forall_ne_some]
    exact fun k found => absent k ((names _ _).mp found)
  rw [takeOver, unknown]

theorem takeOver_idle (names : ∀ n k, find? n = some k ↔ name k = n) (absent : ∀ k, name k ≠ unknown)
    (idle : ∀ entry ∈ entries, entry.1 = unknown ∨ ∃ k, name k = entry.1 ∧ table k = entry.2)
    (mentioned : ∃ entry ∈ entries, entry.1 = unknown) : takeOver find? table entries = (table, some unknown) := by
  induction entries with
  | nil => simp at mentioned
  | cons entry entries ih =>
    rw [List.forall_mem_cons] at idle
    rcases idle.1 with rfl | ⟨k, isName, holds⟩
    · exact takeOver_unknown absent names
    · have unchanged : (fun other => if other = k then entry.2 else table other) = table := by
        funext other
        split <;> simp_all
      simp only [takeOver, (names _ _).mpr isName, unchanged]
      refine ih idle.2 ?_
      obtain ⟨other, member, same⟩ := mentioned
      rcases List.mem_cons.mp member with rfl | later
      · exact absurd (isName.trans same) (absent k)
      · exact ⟨other, later, same⟩

theorem takeOver_order_free_iff (names : ∀ n k, find? n = some k ↔ name k = n) (distinct : (entries.map (·.1)).Nodup) :
    (∀ other, other.Perm entries → takeOver find? table other = takeOver find? table entries) ↔
      OrderFree name table entries := by
  by_cases known : ∀ entry ∈ entries, ∃ k, name k = entry.1
  · refine iff_of_true (fun other perm => ?_) (.inl known)
    rw [takeOver_known names known, takeOver_known names fun entry member => known entry (perm.mem_iff.mp member)]
    simp only [said_eq_of_perm distinct perm]
  · obtain ⟨first, isFirst, absent⟩ : ∃ first ∈ entries, ∀ k, name k ≠ first.1 := by
      simpa only [not_forall, not_exists, exists_prop] using known
    constructor
    · intro free
      have front := free _ (List.perm_cons_erase isFirst).symm
      rw [takeOver_unknown absent names] at front
      refine .inr ⟨first.1, fun entry member => or_iff_not_imp_left.mpr fun differ => ?_⟩
      by_cases isKnown : ∃ k, name k = entry.1
      · -- With the known entry in front and the unknown one behind it, this entry alone is applied.
        obtain ⟨k, isName⟩ := isKnown
        have later : first ∈ entries.erase entry := by
          rw [List.mem_erase_of_ne (by rintro rfl; exact differ rfl)]
          exact isFirst
        have both := ((List.perm_cons_erase member).trans ((List.perm_cons_erase later).cons entry)).symm
        have behind := (free _ both).trans front.symm
        rw [takeOver, (names _ _).mpr isName] at behind
        dsimp only at behind
        rw [takeOver_unknown absent names] at behind
        exact ⟨k, isName, by simpa using (congrFun (congrArg Prod.fst behind) k).symm⟩
      · have behind := free _ (List.perm_cons_erase member).symm
        rw [takeOver_unknown (by simpa using isKnown) names, ← front, Prod.mk.injEq, Option.some.injEq] at behind
        exact absurd behind.2 differ
    · rintro (all | ⟨unknown, idle⟩) other perm
      · exact absurd all known
      · obtain rfl | ⟨k, isName, _⟩ := idle first isFirst
        · rw [takeOver_idle names absent idle ⟨first, isFirst, rfl⟩]
          exact takeOver_idle names absent (fun entry member => idle entry (perm.mem_iff.mp member))
            ⟨first, perm.mem_iff.mpr isFirst, rfl⟩
        · exact absurd isName (absent k)

end Tables

theorem Warning.find?_eq_some_iff (n : Bytes) (w : Warning) : Warning.find? n = some w ↔ w.name = n := by
  constructor
  · intro found
    simpa using List.find?_some found
  · rintro rfl
    cases w <;> decide +kernel

theorem Feature.find?_eq_some_iff (n : Bytes) (f : Feature) : Feature.find? n = some f ↔ f.name = n := by
  constructor
  · intro found
    simpa using List.find?_some found
  · rintro rfl
    cases f <;> decide +kernel

namespace Settings

theorem applyWarnings_eq (s : Settings) (entries : List (Bytes × Bool)) :
    s.applyWarnings entries =
      ({ s with warnings := (takeOver Warning.find? s.warnings entries).1 },
        (takeOver Warning.find? s.warnings entries).2.map .unknownWarning) := by
  induction entries generalizing s with
  | nil => rfl
  | cons entry entries ih =>
    rw [applyWarnings, takeOver]
    cases Warning.find? entry.1 with
    | none => rfl
    | some w => exact ih (s.setWarning w entry.2)

theorem applyFeatures_eq (s : Settings) (entries : List (Bytes × Bool)) :
    s.applyFeatures entries =
      ({ s with features := (takeOver Feature.find? s.features entries).1 },
        (takeOver Feature.find? s.features entries).2.map .unknownFeature) := by
  induction entries generalizing s with
  | nil => rfl
  | cons entry entries ih =>
    rw [applyFeatures, takeOver]
    cases Feature.find? entry.1 with
    | none => rfl
    | some f => exact ih (s.setFeature f entry.2)

def withMacros (macros : Macros) (entries : List (Bytes × Bytes)) : Macros :=
  entries.foldl (fun macros entry => macros.set entry.1 (if entry.2.isEmpty then "1" else entry.2)) macros

theorem applyProject_eq (s : Settings) (project : Project) :
    let warned := takeOver Warning.find? s.warnings project.warnings
    let featured := takeOver Feature.find? s.features project.features
    s.applyProject project =
      match warned.2, featured.2 with
      | some name, _ => ({ s with warnings := warned.1 }, some (.unknownWarning name))
      | none, some name => ({ s with warnings := warned.1, features := featured.1 }, some (.unknownFeature name))
      | none, none =>
        ({ warnings := warned.1, features := featured.1
           includeDirs := s.includeDirs ++ project.includeDirs
           defines := withMacros s.defines project.defines
           output := if project.output.isEmpty then s.output else project.output }, none) := by
  simp only [applyProject, applyWarnings_eq]
  generalize takeOver Warning.find? s.warnings project.warnings = warned
  obtain ⟨warnings, _ | name⟩ := warned
  · simp only [Option.map_none, applyFeatures_eq]
    generalize takeOver Feature.find? s.features project.features = featured
    obtain ⟨features, _ | name⟩ := featured <;> rfl
  · rfl

theorem find?_set (name given value : Bytes) (macros : Macros) :
    (macros.set given value).find? name = if given = name then some value else macros.find? name := by
  fun_induction Macros.set given value macros with
  | case1 => by_cases same : given = name <;> simp [Macros.find?, same]
  | case2 entry rest here =>
    by_cases same : given = name <;> simp [Macros.find?, same, here]
  | case3 entry rest other ih =>
    simp only [Macros.find?] at ih ⊢
    by_cases here : entry.1 = name
    · simp [here, Ne.symm (here ▸ other)]
    · simpa [List.find?_cons, here] using ih

theorem find?_withMacros (macros : Macros) (entries : List (Bytes × Bytes)) (name : Bytes) :
    (withMacros macros entries).find? name =
      (entries.filterMap fun entry =>
        if entry.1 = name then some (if entry.2.isEmpty then utf8 "1" else entry.2) else none).getLast?.or
          (macros.find? name) := by
  induction entries generalizing macros with
  | nil => rfl
  | cons entry entries ih =>
    rw [withMacros, List.foldl_cons, ← withMacros, ih, find?_set, List.filterMap_cons]
    by_cases same : entry.1 = name
    · simp only [if_pos same, List.getLast?_cons]
      cases List.getLast? _ <;> rfl
    · simp only [if_neg same]

end Settings

namespace Project

structure Reorders (other project : Project) : Prop where
  warnings : other.warnings.Perm project.warnings
  features : other.features.Perm project.features
  defines : other.defines.Perm project.defines
  includeDirs : other.includeDirs = project.includeDirs
  output : other.output = project.output

structure HasMaps (project : Project) : Prop where
  warnings : (project.warnings.map (·.1)).Nodup
  features : (project.features.map (·.1)).Nodup
  defines : (project.defines.map (·.1)).Nodup

def Known (project : Project) : Prop :=
  (∀ entry ∈ project.warnings, ∃ w : Warning, w.name = entry.1) ∧
    ∀ entry ∈ project.features, ∃ f : Feature, f.name = entry.1

theorem Reorders.known_iff {other project : Project} (reorders : other.Reorders project) : other.Known ↔ project.Known := by
  simp only [Known, reorders.warnings.mem_iff, reorders.features.mem_iff]

end Project

namespace Settings

structure Same (s t : Settings) : Prop where
  warnings : s.warnings = t.warnings
  features : s.features = t.features
  includeDirs : s.includeDirs = t.includeDirs
  defines (name : Bytes) : s.defines.find? name = t.defines.find? name
  output : s.output = t.output

theorem takeOver_warnings (s : Settings) (project : Project) :
    takeOver Warning.find? s.warnings project.warnings =
      ((s.applyProject project).1.warnings,
        match (s.applyProject project).2 with
        | some (.unknownWarning name) => some name
        | _ => none) := by
  rw [applyProject_eq]
  generalize takeOver Warning.find? s.warnings project.warnings = warned
  generalize takeOver Feature.find? s.features project.features = featured
  obtain ⟨warnings, _ | name⟩ := warned
  · obtain ⟨features, _ | name⟩ := featured <;> rfl
  · rfl

theorem takeOver_features (s : Settings) (project : Project)
    (known : (takeOver Warning.find? s.warnings project.warnings).2 = none) :
    takeOver Feature.find? s.features project.features =
      ((s.applyProject project).1.features,
        match (s.applyProject project).2 with
        | some (.unknownFeature name) => some name
        | _ => none) := by
  rw [applyProject_eq, known]
  generalize takeOver Feature.find? s.features project.features = featured
  obtain ⟨features, _ | name⟩ := featured <;> rfl

theorem applyProject_error_iff (s : Settings) (project : Project) : (s.applyProject project).2 = none ↔ project.Known := by
  rw [Project.Known, ← takeOver_error_iff Warning.find?_eq_some_iff, ← takeOver_error_iff Feature.find?_eq_some_iff,
    applyProject_eq]
  generalize takeOver Warning.find? s.warnings project.warnings = warned
  generalize takeOver Feature.find? s.features project.features = featured
  obtain ⟨warnings, _ | name⟩ := warned
  · obtain ⟨features, _ | name⟩ := featured <;> simp
  · simp

/-- Taking over a project does not depend on the order of its entries exactly if its warnings and, once they are all
known, its features have no unknown name, or only one, beside entries that change nothing. Whether it succeeds never
depends on the order. -/
theorem applyProject_order_free_iff (s : Settings) {project : Project} (maps : project.HasMaps) :
    (∀ other : Project, other.Reorders project → ((s.applyProject other).2 = none ↔ project.Known)) ∧
    ((∀ other : Project, other.Reorders project →
        (s.applyProject other).2 = (s.applyProject project).2 ∧
          (s.applyProject other).1.Same (s.applyProject project).1) ↔
      OrderFree Warning.name s.warnings project.warnings ∧
        ((∀ entry ∈ project.warnings, ∃ w : Warning, w.name = entry.1) →
          OrderFree Feature.name s.features project.features)) := by
  rw [← takeOver_order_free_iff Warning.find?_eq_some_iff maps.warnings,
    ← takeOver_order_free_iff Feature.find?_eq_some_iff maps.features,
    ← takeOver_error_iff Warning.find?_eq_some_iff]
  refine ⟨fun other reorders => ?_, fun free => ⟨fun other perm => ?_, fun known other perm => ?_⟩, ?_⟩
  · rw [applyProject_error_iff, reorders.known_iff]
  · obtain ⟨error, same⟩ := free { project with warnings := other } ⟨perm, .rfl, .rfl, rfl, rfl⟩
    have taken := s.takeOver_warnings { project with warnings := other }
    rw [error, same.warnings] at taken
    exact taken.trans (s.takeOver_warnings project).symm
  · obtain ⟨error, same⟩ := free { project with features := other } ⟨.rfl, perm, .rfl, rfl, rfl⟩
    have taken := s.takeOver_features { project with features := other } known
    rw [error, same.features] at taken
    exact taken.trans (s.takeOver_features project known).symm
  · rintro ⟨warned, featured⟩ other reorders
    specialize warned _ reorders.warnings
    simp only [applyProject_eq, warned]
    cases unknown : (takeOver Warning.find? s.warnings project.warnings).2 with
    | some name => exact ⟨rfl, rfl, rfl, rfl, fun _ => rfl, rfl⟩
    | none =>
      rw [featured unknown _ reorders.features]
      cases (takeOver Feature.find? s.features project.features).2 with
      | some name => exact ⟨rfl, rfl, rfl, rfl, fun _ => rfl, rfl⟩
      | none =>
        refine ⟨rfl, rfl, rfl, by rw [reorders.includeDirs], fun name => ?_, by rw [reorders.output]⟩
        rw [find?_withMacros, find?_withMacros]
        congr 2
        refine filterMap_eq_of_perm maps.defines (fun a b isA isB => ?_) reorders.defines
        simp only [Option.isSome_ite] at isA isB
        exact isA.trans isB.symm

theorem applyProject_order_free_iff_idle :
    let project : Project := { warnings := [("extra", true), ("unheard-of", false)], defines := [("A", []), ("B", "2")] }
    project.HasMaps ∧ ∀ other : Project, other.Reorders project →
      (({} : Settings).applyProject other).2 = some (.unknownWarning "unheard-of") ∧
        (({} : Settings).applyProject other).1.Same (({} : Settings).applyProject project).1 := by
  intro project
  have maps : project.HasMaps := ⟨by decide +kernel, by decide +kernel, by decide +kernel⟩
  have idle : OrderFree Warning.name Warning.default project.warnings := by
    refine .inr ⟨"unheard-of", List.forall_mem_cons.mpr ⟨.inr ⟨.extra, rfl, rfl⟩, ?_⟩⟩
    exact List.forall_mem_cons.mpr ⟨.inl rfl, by simp⟩
  refine ⟨maps, fun other reorders => ?_⟩
  exact (applyProject_order_free_iff {} maps).2.mpr ⟨idle, fun _ => .inl (by simp [project])⟩ other reorders

theorem unknown_name_order_matters :
    let apply (entries : List (Bytes × Bool)) := ({} : Settings).applyProject { warnings := entries }
    (apply [("extra", false), ("unheard-of", true)]).1.warnings .extra = false ∧
    (apply [("unheard-of", true), ("extra", false)]).1.warnings .extra = true ∧
    (apply [("new", true), ("old", true)]).2 = some (.unknownWarning "new") ∧
    (apply [("old", true), ("new", true)]).2 = some (.unknownWarning "old") := by
  decide +kernel

end Settings

end Cb
