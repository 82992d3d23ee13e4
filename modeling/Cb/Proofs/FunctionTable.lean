import Cb.Proofs.ReadingOrder

/-! The table of functions after any sequence of registrations. Names are distinct and stand in the order in which they
were accepted first. An entry can change until it has a body, and only to one that its callers can call. -/

namespace Cb

structure Registry where
  scope : Scope := {}
  accepted : List Function := []

namespace Registry

/-- What every entry of the older table has become: it stands in the same place and can be called in the same way, and
it is still the same one if it has a body. -/
def Extends (older newer : List Function) : Prop :=
  ∀ (place : Nat) (known : Function), older[place]? = some known →
    ∃ now, newer[place]? = some now ∧ known.Agrees now ∧ (known.isImplemented = true → now = known)

def table (r : Registry) : List Function := r.scope.functions

def call (r : Registry) (f : Function) : Registry :=
  match r.scope.addFunction f with
  | .ok scope => ⟨scope, r.accepted ++ [f]⟩
  | .error _ => r

def after (calls : List Function) : Registry := calls.foldl call {}

theorem call_of_refused {r : Registry} (refused : ∃ error, r.scope.addFunction f = .error error) :
    r.call f = r := by
  obtain ⟨error, refused⟩ := refused
  simp only [call, refused]

theorem call_cases (r : Registry) (f : Function) :
    (∀ g ∈ r.table, g.name ≠ f.name) ∧ (r.call f).table = r.table ++ [f] ∧ (r.call f).accepted = r.accepted ++ [f] ∨
      ∃ before known after, r.table = before ++ known :: after ∧ known.name = f.name ∧
        (known.Refuses f ∧ (∃ error, r.scope.addFunction f = .error error) ∨
          ¬known.Refuses f ∧ (r.call f).table = before ++ f :: after ∧ (r.call f).accepted = r.accepted ++ [f]) := by
  have opened : r.scope.addFunction f = (Scope.register f r.table).map fun functions => { r.scope with functions } := rfl
  rcases Scope.register_outcome f r.table with ⟨missing, added⟩ |
    ⟨before, known, after, shape, _, named, ⟨refuses, error, refused⟩ | ⟨admits, replaced⟩⟩
  · rw [added] at opened
    exact .inl ⟨missing, by simp only [call, opened, Except.map, table], by simp only [call, opened, Except.map]⟩
  · rw [refused] at opened
    exact .inr ⟨before, known, after, shape, named, Or.inl ⟨refuses, error, opened⟩⟩
  · rw [replaced] at opened
    refine .inr ⟨before, known, after, shape, named, Or.inr ⟨admits, ?_, ?_⟩⟩
    · simp only [call, opened, Except.map, table]
    · simp only [call, opened, Except.map]

structure Sound (r : Registry) : Prop where
  nodup : (r.table.map (·.name)).Nodup
  names : r.table.map (·.name) = distinct (r.accepted.map (·.name))
  newest : ∀ g ∈ r.table, r.accepted.reverse.find? (·.name = g.name) = some g
  oldest : ∀ g ∈ r.table, ∃ first, r.accepted.find? (·.name = g.name) = some first ∧ first.Agrees g

variable {r : Registry} {f : Function}

theorem sound_start : Sound {} := ⟨by simp [table], rfl, by simp [table], by simp [table]⟩

theorem distinct_append_new (new : name ∉ names) :
    distinct (names ++ [name]) = distinct names ++ [name] := by
  induction names with
  | nil => rfl
  | cons first rest ih =>
    simp only [List.mem_cons, not_or] at new
    simp [distinct, ih new.2, new.1]

theorem Sound.newest_accepted (sound : r.Sound) {table : List Function}
    (entries : ∀ g ∈ table, g = f ∨ g ∈ r.table ∧ g.name ≠ f.name) :
    ∀ g ∈ table, (r.accepted ++ [f]).reverse.find? (·.name = g.name) = some g := by
  intro g member
  rw [List.reverse_append, List.reverse_singleton, List.singleton_append]
  rcases entries g member with rfl | ⟨earlier, other⟩
  · simp
  · rw [List.find?_cons_of_neg (by simpa using other.symm)]
    exact sound.newest g earlier

theorem Sound.oldest_accepted (sound : r.Sound) {table : List Function}
    (entries : ∀ g ∈ table, g = f ∨ g ∈ r.table ∧ g.name ≠ f.name)
    (own : ∃ first, (r.accepted ++ [f]).find? (·.name = f.name) = some first ∧ first.Agrees f) :
    ∀ g ∈ table, ∃ first, (r.accepted ++ [f]).find? (·.name = g.name) = some first ∧ first.Agrees g := by
  intro g member
  rcases entries g member with rfl | ⟨earlier, _⟩
  · exact own
  · obtain ⟨first, found, agrees⟩ := sound.oldest g earlier
    exact ⟨first, by rw [List.find?_append, found]; rfl, agrees⟩

theorem Sound.append (sound : r.Sound) (missing : ∀ g ∈ r.table, g.name ≠ f.name)
    (table : (r.call f).table = r.table ++ [f]) (accepted : (r.call f).accepted = r.accepted ++ [f]) :
    (r.call f).Sound := by
  have new : f.name ∉ r.accepted.map (·.name) := by
    rw [← mem_distinct, ← sound.names]
    intro known
    obtain ⟨g, member, named⟩ := List.mem_map.mp known
    exact missing g member named
  have entries : ∀ g ∈ r.table ++ [f], g = f ∨ g ∈ r.table ∧ g.name ≠ f.name := by
    intro g member
    rcases List.mem_append.mp member with earlier | last
    · exact .inr ⟨earlier, missing g earlier⟩
    · exact .inl (List.mem_singleton.mp last)
  have absent : r.accepted.find? (·.name = f.name) = none := by
    rw [List.find?_eq_none]
    intro g member named
    exact new (List.mem_map.mpr ⟨g, member, of_decide_eq_true named⟩)
  have own : (r.accepted ++ [f]).find? (·.name = f.name) = some f := by simp [List.find?_append, absent]
  constructor
  · simpa [table, List.nodup_append] using ⟨sound.nodup, missing⟩
  · rw [table, accepted, List.map_append, List.map_append, List.map_singleton, distinct_append_new new, sound.names]
  · rw [table, accepted]
    exact sound.newest_accepted entries
  · rw [table, accepted]
    exact sound.oldest_accepted entries ⟨f, own, .refl f⟩

theorem Sound.replace (sound : r.Sound) {before after : List Function} (shape : r.table = before ++ known :: after)
    (agrees : known.Agrees f) (table : (r.call f).table = before ++ f :: after)
    (accepted : (r.call f).accepted = r.accepted ++ [f]) :
    (r.call f).Sound := by
  have names : (before ++ f :: after).map (·.name) = r.table.map (·.name) := by simp [shape, agrees.1]
  have listed : f.name ∈ r.accepted.map (·.name) := by
    rw [← mem_distinct, ← sound.names, shape]
    simp [agrees.1]
  have entries : ∀ g ∈ before ++ f :: after, g = f ∨ g ∈ r.table ∧ g.name ≠ f.name := by
    have nodup := sound.nodup
    rw [shape, List.map_append, List.map_cons, List.nodup_middle, List.nodup_cons, ← List.map_append] at nodup
    intro g member
    rcases List.mem_append.mp member with early | late
    · refine .inr ⟨by simp [shape, early], fun same => nodup.1 ?_⟩
      exact List.mem_map.mpr ⟨g, by simp [early], same.trans agrees.1⟩
    · rcases List.mem_cons.mp late with rfl | later
      · exact .inl rfl
      · refine .inr ⟨by simp [shape, later], fun same => nodup.1 ?_⟩
        exact List.mem_map.mpr ⟨g, by simp [later], same.trans agrees.1⟩
  constructor
  · rw [table, names]
    exact sound.nodup
  · rw [table, names, accepted, List.map_append, List.map_singleton, distinct_append_cons listed, List.append_nil,
      sound.names]
  · rw [table, accepted]
    exact sound.newest_accepted entries
  · rw [table, accepted]
    refine sound.oldest_accepted entries ?_
    obtain ⟨first, found, alike⟩ := sound.oldest known (by simp [shape])
    rw [← agrees.1] at found
    exact ⟨first, by rw [List.find?_append, found]; rfl, alike.trans agrees⟩

theorem Sound.call (sound : r.Sound) (f : Function) : (r.call f).Sound := by
  rcases r.call_cases f with ⟨missing, table, accepted⟩ |
    ⟨before, known, after, shape, named, ⟨_, refused⟩ | ⟨admits, table, accepted⟩⟩
  · exact sound.append missing table accepted
  · rwa [call_of_refused refused]
  · exact sound.replace shape (Function.agrees_of_not_refuses named admits) table accepted

theorem Sound.run (sound : r.Sound) (calls : List Function) : (calls.foldl Registry.call r).Sound := by
  induction calls generalizing r with
  | nil => exact sound
  | cons f rest ih => exact ih (sound.call f)

theorem Extends.refl (table : List Function) : Extends table table := by
  intro place known there
  exact ⟨known, there, .refl known, fun _ => rfl⟩

theorem Extends.trans (early : Extends first second) (late : Extends second third) :
    Extends first third := by
  intro place known there
  obtain ⟨middle, between, agrees, kept⟩ := early place known there
  obtain ⟨now, here, alike, keptToo⟩ := late place middle between
  refine ⟨now, here, agrees.trans alike, ?_⟩
  intro implemented
  obtain rfl := kept implemented
  exact keptToo implemented

theorem call_extends (r : Registry) (f : Function) : Extends r.table (r.call f).table := by
  rcases r.call_cases f with ⟨_, table, _⟩ | ⟨before, known, after, shape, named, ⟨_, refused⟩ | ⟨admits, table, _⟩⟩
  · rw [table]
    intro place known there
    have inside := (List.getElem?_eq_some_iff.mp there).1
    exact ⟨known, by rw [List.getElem?_append_left inside, there], .refl known, fun _ => rfl⟩
  · rw [call_of_refused refused]
    exact .refl _
  · rw [table, shape]
    intro place entry there
    by_cases here : place = before.length
    · subst here
      obtain rfl : known = entry := by simpa using there
      refine ⟨f, by simp, Function.agrees_of_not_refuses named admits, ?_⟩
      intro implemented
      exact absurd (Or.inl implemented) admits
    · refine ⟨entry, ?_, .refl entry, fun _ => rfl⟩
      rcases Nat.lt_or_gt_of_ne here with early | late
      · rwa [List.getElem?_append_left early] at there ⊢
      · obtain ⟨later, rfl⟩ : ∃ later, place = before.length + (later + 1) := ⟨place - before.length - 1, by omega⟩
        rw [List.getElem?_append_right (by omega)] at there ⊢
        simpa using there

theorem run_extends (r : Registry) (calls : List Function) : Extends r.table (calls.foldl call r).table := by
  induction calls generalizing r with
  | nil => exact .refl _
  | cons f rest ih => exact (r.call_extends f).trans (ih (r.call f))

theorem Sound.refused_iff (sound : r.Sound) (f : Function) :
    (∃ error, r.scope.addFunction f = .error error) ↔ ∃ known ∈ r.table, known.name = f.name ∧ known.Refuses f := by
  constructor
  · intro refused
    have same := congrArg accepted (call_of_refused refused)
    rcases r.call_cases f with ⟨_, _, accepted⟩ | ⟨before, known, after, shape, named, ⟨refuses, _⟩ | ⟨_, _, accepted⟩⟩
    · simp [accepted] at same
    · exact ⟨known, by simp [shape], named, refuses⟩
    · simp [accepted] at same
  · rintro ⟨known, member, named, refuses⟩
    rcases r.call_cases f with ⟨missing, _, _⟩ | ⟨before, entry, after, shape, namedToo, ⟨_, refused⟩ | ⟨admits, _, _⟩⟩
    · exact absurd named (missing known member)
    · exact refused
    · have same : known = entry :=
        List.inj_on_of_nodup_map sound.nodup member (by simp [shape]) (named.trans namedToo.symm)
      exact absurd refuses (same ▸ admits)

end Registry

open Registry in
/-- After any calls, and whatever calls follow: names are distinct and in the order of their first acceptance, entries
agree with the first one accepted, those with a body stay, and a call is refused exactly by an entry of its name. -/
theorem registrations_consistent (calls more : List Function) (f : Function) :
    ((after calls).table.map (·.name)).Nodup ∧
      (after calls).table.map (·.name) = distinct ((after calls).accepted.map (·.name)) ∧
      (∀ g ∈ (after calls).table, (after calls).accepted.reverse.find? (·.name = g.name) = some g ∧
        ∃ first, (after calls).accepted.find? (·.name = g.name) = some first ∧ first.Agrees g) ∧
      Extends (after calls).table (after (calls ++ more)).table ∧
      ((∃ error, (after calls).scope.addFunction f = .error error) ↔
        ∃ known ∈ (after calls).table, known.name = f.name ∧ known.Refuses f) ∧
      ((∃ error, (after calls).scope.addFunction f = .error error) → after (calls ++ [f]) = after calls) := by
  have sound : (after calls).Sound := sound_start.run calls
  refine ⟨sound.nodup, sound.names, ?_, ?_, sound.refused_iff f, ?_⟩
  · intro g member
    exact ⟨sound.newest g member, sound.oldest g member⟩
  · rw [after, after, List.foldl_append]
    exact run_extends _ more
  · intro refused
    rw [after, List.foldl_append]
    exact call_of_refused refused

end Cb
