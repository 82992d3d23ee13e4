import Cb.Proofs.IncludeNesting
import Cb.Proofs.Texts
import Mathlib.Data.Bool.Basic
import Mathlib.Data.List.TakeWhile

/-! Writing a file changes the content at one place, the one that the path leads to, and no other. Where a path
leads can be told from its text: the last component decides between two paths that agree up to their last slash. -/

namespace Cb

theorem Bytes.after_last (mark : UInt8) (text : Bytes) :
    mark ∉ (text.reverse.takeWhile (· ≠ mark)).reverse ∧
      (text = (text.reverse.takeWhile (· ≠ mark)).reverse ∨
        ∃ front, text = front ++ mark :: (text.reverse.takeWhile (· ≠ mark)).reverse) := by
  constructor
  · intro member
    simpa using List.mem_takeWhile_imp (List.mem_reverse.mp member)
  · have whole := List.takeWhile_append_dropWhile (p := fun b => decide (b ≠ mark)) (l := text.reverse)
    have first := List.head?_dropWhile_not (fun b => decide (b ≠ mark)) text.reverse
    generalize text.reverse.dropWhile (fun b => decide (b ≠ mark)) = dropped at whole first
    generalize text.reverse.takeWhile (fun b => decide (b ≠ mark)) = kept at whole
    rw [← List.reverse_reverse text, ← whole, List.reverse_append]
    cases dropped with
    | nil => exact .inl rfl
    | cons b others =>
      have same : b = mark := by simpa using first
      exact .inr ⟨others.reverse, by simp [same]⟩

theorem Bytes.take_front (first second : Bytes) :
    (first ++ second).take ((first ++ second).length - second.length) = first := by simp

namespace Path

def IsFront (front : Bytes) : Prop := front = [] ∨ ∃ dir, front = dir ++ [slash]

theorem exists_front (path : Bytes) :
    ∃ front, IsFront front ∧ slash ∉ lastPart path ∧ path = front ++ lastPart path := by
  obtain ⟨absent, whole | ⟨dir, shape⟩⟩ := Bytes.after_last slash path
  · exact ⟨[], .inl rfl, absent, whole⟩
  · exact ⟨dir ++ [slash], .inr ⟨dir, rfl⟩, absent, by rw [List.append_assoc]; exact shape⟩

theorem components_append (isFront : IsFront front) :
    ∃ parts, ∀ name, slash ∉ name → components (front ++ name) = parts ++ [name] := by
  rcases isFront with rfl | ⟨dir, rfl⟩
  · exact ⟨[], fun name plain => Bytes.split_of_absent plain⟩
  · refine ⟨components dir, fun name plain => ?_⟩
    rw [List.append_assoc, List.singleton_append, components, Bytes.split_append, Bytes.split_of_absent plain]
    rfl

theorem isAbsolute_append (isFront : IsFront front) (plain : slash ∉ name) :
    isAbsolute (front ++ name) = isAbsolute front := by
  cases front with
  | nil =>
    cases name with
    | nil => rfl
    | cons b rest =>
      have other : b ≠ slash := fun same => plain (by simp [same])
      simp [isAbsolute, other]
  | cons b rest => rfl

theorem extension_cases (path : Bytes) :
    (extension path = [] ∧ byte '.' ∉ lastPart path) ∨
      ∃ stem rest, extension path = byte '.' :: rest ∧ byte '.' ∉ rest ∧ lastPart path = stem ++ byte '.' :: rest := by
  obtain ⟨absent, cut⟩ := Bytes.after_last (byte '.') (lastPart path)
  rw [extension]
  split
  · next dotted =>
    have dotted : byte '.' ∈ lastPart path := by simpa using dotted
    rcases cut with whole | ⟨stem, shape⟩
    · exact absurd dotted (whole ▸ absent)
    · exact .inr ⟨stem, _, rfl, absent, shape⟩
  · next undotted => exact .inl ⟨rfl, by simpa using undotted⟩

theorem exists_stem (path : Bytes) : ∃ front stem, IsFront front ∧ slash ∉ stem ++ extension path ∧
    withoutExtension path = front ++ stem ∧ path = front ++ (stem ++ extension path) := by
  obtain ⟨front, isFront, plain, shape⟩ := exists_front path
  obtain ⟨stem, ended⟩ : ∃ stem, lastPart path = stem ++ extension path := by
    rcases extension_cases path with ⟨none, -⟩ | ⟨stem, rest, ending, -, whole⟩
    · exact ⟨lastPart path, by rw [none, List.append_nil]⟩
    · exact ⟨stem, by rw [ending, whole]⟩
  rw [ended] at plain shape
  refine ⟨front, stem, isFront, plain, ?_, shape⟩
  rw [withoutExtension]
  generalize extension path = ending at shape
  rw [shape, ← List.append_assoc, Bytes.take_front]

/-- `ending` is the extension of a path and `stem` what stands before it: it begins at the last dot of the last
component, and is empty if that has none. -/
structure Extends (path stem ending : Bytes) : Prop where
  whole : path = stem ++ ending
  inside : slash ∉ ending
  last : (ending = [] ∧ byte '.' ∉ lastPart path) ∨ ∃ rest, ending = byte '.' :: rest ∧ byte '.' ∉ rest

theorem extends_extension (path : Bytes) : Extends path (withoutExtension path) (extension path) := by
  obtain ⟨front, stem, -, plain, before, shape⟩ := exists_stem path
  refine ⟨?_, fun member => plain (List.mem_append_right stem member), ?_⟩
  · rw [before, List.append_assoc]
    exact shape
  · rcases extension_cases path with none | ⟨-, rest, ending, absent, -⟩
    · exact .inl none
    · exact .inr ⟨rest, ending, absent⟩

theorem walk_append (place : List Bytes) (first second : List Bytes) :
    walk place (first ++ second) = walk (walk place first) second := by
  induction first generalizing place with
  | nil => rfl
  | cons part rest ih =>
    rw [List.cons_append, walk, walk]
    split
    · exact ih place
    split
    · exact ih place.dropLast
    · exact ih (place ++ [part])

def IsName (part : Bytes) : Prop := part ≠ [] ∧ part ≠ utf8 "." ∧ part ≠ utf8 ".."

variable {part : Bytes}

theorem isName_of_length (long : 2 < part.length) : IsName part := by
  refine ⟨?_, ?_, ?_⟩ <;>
  · rintro rfl
    exact absurd long (by decide)

theorem walk_name (place : List Bytes) (isName : IsName part) : walk place [part] = place ++ [part] := by
  have moves : ¬(part.isEmpty || part = utf8 ".") = true := by simp [isName.1, isName.2.1]
  rw [walk, if_neg moves, if_neg isName.2.2]
  rfl

theorem walk_inj (isName : IsName name) (same : walk place [part] = walk place [name]) : part = name := by
  rw [walk_name place isName, walk] at same
  split at same
  · have lengths := congrArg List.length same
    simp [walk] at lengths
  split at same
  · have lengths := congrArg List.length same
    simp [walk] at lengths
  · simpa [walk] using same

end Path

namespace Files

variable {files : Files} {place : Place} {content : Bytes}

theorem content?_put (files : Files) (place other : Place) (content : Bytes) :
    (files.put place content).content? other = if other = place then some content else files.content? other := by
  have replaced (entries : List (Place × Bytes)) :
      ((entries.map fun entry => if entry.1 = place then (place, content) else entry).find? (·.1 = other)).map (·.2) =
        if other = place ∧ entries.any (·.1 = place) = true then some content
        else (entries.find? (·.1 = other)).map (·.2) := by
    induction entries with
    | nil => simp
    | cons entry rest ih => grind
  rw [put, content?]
  split
  · next there => rw [replaced]; simp [there, content?]
  · next new =>
    rw [List.find?_append, content?]
    by_cases same : other = place
    · subst same
      have absent : files.entries.find? (·.1 = other) = none :=
        List.find?_eq_none.mpr fun entry member found => new (List.any_eq_true.mpr ⟨entry, member, found⟩)
      simp [absent]
    · simp [same, Ne.symm same]

theorem isDirectory_iff : files.isDirectory place = true ↔
    place <+: files.current ∨ (∃ dir ∈ files.made, place <+: dir) ∨
      ∃ entry ∈ files.entries, place <+: entry.1 ∧ place ≠ entry.1 := by
  simp [isDirectory, or_assoc]

theorem isDirectory_put : (files.put place content).isDirectory other = true ↔
    files.isDirectory other = true ∨ (other <+: place ∧ other ≠ place) := by
  rw [isDirectory_iff, isDirectory_iff, put]
  dsimp only
  split
  · next there =>
    obtain ⟨entry, member, same⟩ := List.any_eq_true.mp there
    have same : entry.1 = place := by simpa using same
    have first (entry : Place × Bytes) : (if entry.1 = place then (place, content) else entry).1 = entry.1 := by
      split <;> simp_all
    simp only [List.mem_map, exists_exists_and_eq_and, first]
    constructor
    · exact .inl
    · rintro (before | above)
      · exact before
      · exact .inr (.inr ⟨entry, member, same ▸ above⟩)
  · simp [or_assoc, or_and_right, exists_or]

theorem has_put (there : files.has other = true) : (files.put place content).has other = true := by
  simp only [has, Bool.or_eq_true] at there ⊢
  rcases there with found | isDir
  · left
    rw [content?_put]
    split <;> simp_all
  · exact .inr (isDirectory_put.mpr (Or.inl isDir))

/-! Following a path. -/

theorem follow_append (files : Files) (place : Place) (first second : List Bytes) :
    files.follow place (first ++ second) = (files.follow place first).bind fun next => files.follow next second := by
  induction first generalizing place with
  | nil => rfl
  | cons part rest ih =>
    rw [List.cons_append, follow, follow]
    split
    · rfl
    split
    · exact ih place
    split
    · exact ih place.dropLast
    split
    · rfl
    split
    · exact ih (place ++ [part])
    · rfl

variable {path : Bytes} {found : Place} {after : Files}

theorem follow_append_ok :
    files.follow place (first ++ second) = .ok found ↔
      ∃ next, files.follow place first = .ok next ∧ files.follow next second = .ok found := by
  rw [follow_append]
  cases files.follow place first <;> simp [Except.bind]

theorem follow_name (isName : Path.IsName part) :
    files.follow place [part] = .ok found ↔
      files.isDirectory place = true ∧ part.length ≤ 255 ∧ files.has (place ++ [part]) = true ∧
        found = place ++ [part] := by
  obtain ⟨nonempty, dot, dots⟩ := isName
  have moves : ¬(part.isEmpty || part = utf8 ".") = true := by simp [nonempty, dot]
  rw [follow, if_neg moves, if_neg dots]
  by_cases isDir : files.isDirectory place = true
  · by_cases short : part.length ≤ 255
    · have fits : ¬255 < part.length := by omega
      by_cases there : files.has (place ++ [part]) = true
      · simp [isDir, fits, short, there, follow, eq_comm]
      · simp [isDir, fits, there]
    · have long : 255 < part.length := by omega
      simp [isDir, long, short]
  · simp [isDir]

theorem follow_put (other : Place) (new : Bytes) (followed : files.follow place parts = .ok found) :
    (files.put other new).follow place parts = .ok found := by
  induction parts generalizing place with
  | nil => exact followed
  | cons part rest ih =>
    rw [follow] at followed ⊢
    split at followed
    · cases followed
    next isDir =>
    have still : (files.put other new).isDirectory place = true := isDirectory_put.mpr (Or.inl (by simpa using isDir))
    rw [if_neg (by simpa using still)]
    split at followed
    · next stays => rw [if_pos stays, ih followed]
    next moves =>
    rw [if_neg moves]
    split at followed
    · next up => rw [if_pos up, ih followed]
    next down =>
    rw [if_neg down]
    split at followed
    · cases followed
    next short =>
    rw [if_neg short]
    split at followed
    · next there => rw [if_pos (has_put there), ih followed]
    · cases followed

theorem locate_put (other : Place) (new : Bytes) (located : files.locate path = .ok found) :
    (files.put other new).locate path = .ok found := by
  rw [locate] at located ⊢
  split at located
  · cases located
  next nonempty =>
  rw [if_neg nonempty]
  split at located
  · cases located
  next valid =>
  rw [if_neg valid]
  exact follow_put other new located

theorem follow_missing (missing : files.follow place [part] = .error .missing) :
    files.isDirectory place = true ∧ Path.IsName part ∧ part.length ≤ 255 ∧ files.has (place ++ [part]) = false := by
  simp only [follow] at missing
  split at missing
  · cases missing
  next isDir =>
  split at missing
  · cases missing
  next moves =>
  split at missing
  · cases missing
  next down =>
  split at missing
  · cases missing
  next short =>
  split at missing
  · cases missing
  next free =>
  simp only [Bool.or_eq_true, List.isEmpty_iff, decide_eq_true_eq, not_or] at moves
  exact ⟨by simpa using isDir, ⟨moves.1, moves.2, down⟩, by omega, by simpa using free⟩

theorem locate_put_new (isFront : Path.IsFront front) (plain : Path.slash ∉ name)
    (missing : files.locate (front ++ name) = .error .missing) (nonempty : name ≠ [])
    (followed : files.follow (files.start (front ++ name)) (Path.components front) = .ok dir) (new : Bytes) :
    (files.put (dir ++ [name]) new).locate (front ++ name) = .ok (dir ++ [name]) ∧
      files.has (dir ++ [name]) = false := by
  obtain ⟨parts, components⟩ := Path.components_append isFront
  have frontParts := components [] List.not_mem_nil
  rw [List.append_nil] at frontParts
  rw [frontParts, follow_append_ok] at followed
  obtain ⟨next, begun, stayed⟩ := followed
  have same : dir = next := by simpa [Path.walk] using files.follow_walks stayed
  subst same
  have visible : ¬(front ++ name).isEmpty = true := by simp [nonempty]
  rw [locate, if_neg visible] at missing ⊢
  split at missing
  · cases missing
  next valid =>
  rw [components name plain, follow_append, begun] at missing
  obtain ⟨isDir, isName, short, free⟩ := follow_missing missing
  refine ⟨?_, free⟩
  rw [if_neg valid, components name plain, follow_append_ok]
  refine ⟨dir, follow_put _ new begun, (follow_name isName).mpr ⟨?_, short, ?_, rfl⟩⟩
  · exact isDirectory_put.mpr (Or.inl isDir)
  · simp [has, content?_put]

theorem write_ok (written : files.write path content = .ok after) :
    ∃ place, after = files.put place content ∧ after.locate path = .ok place ∧ files.isDirectory place = false := by
  obtain ⟨front, isFront, plain, shape⟩ := Path.exists_front path
  rw [write] at written
  split at written
  -- A file that is there is replaced; a new one is put into the directory that the front of the path leads to.
  · next place located =>
    split at written
    · cases written
    · next isFile =>
      cases written
      exact ⟨place, rfl, locate_put place content located, by simpa using isFile⟩
  · next missing =>
    generalize Path.lastPart path = name at *
    subst shape
    dsimp only at written
    rw [Bytes.take_front] at written
    split at written
    · cases written
    split at written
    · cases written
    next dir followed =>
    split at written
    · cases written
    next nonempty =>
    cases written
    obtain ⟨located, free⟩ := locate_put_new isFront plain missing (by simpa using nonempty) followed content
    rw [has, Bool.or_eq_false_iff] at free
    exact ⟨_, rfl, located, free.2⟩
  · cases written

/-- What writing `content` at a path has to do: the path leads to the content, and nothing else is different. -/
structure Writes (before after : Files) (path content : Bytes) (place : Place) : Prop where
  leads : after.locate path = .ok place
  there : after.content? place = some content
  others : ∀ other, other ≠ place → after.content? other = before.content? other
  current : after.current = before.current
  made : after.made = before.made

theorem writes_of_write (written : files.write path content = .ok after) :
    ∃ place, files.Writes after path content place := by
  obtain ⟨place, rfl, located, -⟩ := write_ok written
  exact ⟨place, located, by rw [content?_put, if_pos rfl], fun other apart => by rw [content?_put, if_neg apart], rfl, rfl⟩

theorem read_ok : files.read path = .ok content ↔
    ∃ place, files.locate path = .ok place ∧ files.content? place = some content := by
  rw [read]
  cases files.locate path with
  | error fault => simp
  | ok place => cases there : files.content? place <;> simp [there]

theorem read_of_write (written : files.write path content = .ok after) : after.read path = .ok content := by
  obtain ⟨place, rfl, located, -⟩ := write_ok written
  exact read_ok.mpr ⟨place, located, by rw [content?_put, if_pos rfl]⟩

theorem read_put (readable : files.read path = .ok old) (apart : files.locate path ≠ .ok place) :
    (files.put place content).read path = .ok old := by
  obtain ⟨found, located, there⟩ := read_ok.mp readable
  have different : found ≠ place := fun same => apart (same ▸ located)
  exact read_ok.mpr ⟨found, locate_put place content located, by rw [content?_put, if_neg different, there]⟩

theorem locate_extended (plain : Path.slash ∉ ending) (long : 2 < ending.length)
    (located : files.locate (Path.withoutExtension path ++ ending) = .ok found) :
    ∃ dir stem, found = dir ++ [stem ++ ending] := by
  obtain ⟨front, stem, isFront, inside, before, -⟩ := Path.exists_stem path
  have outside : Path.slash ∉ stem ++ ending := by
    simp only [List.mem_append, not_or] at inside ⊢
    exact ⟨inside.1, plain⟩
  obtain ⟨parts, components⟩ := Path.components_append isFront
  have name : Path.IsName (stem ++ ending) := Path.isName_of_length (by rw [List.length_append]; omega)
  have walks := locate_walks located
  rw [before, List.append_assoc, components _ outside, Path.walk_append, Path.walk_name _ name] at walks
  exact ⟨_, stem, walks⟩

theorem locate_ne_of_extension {other : Files} (same : other.current = files.current) (plain : Path.slash ∉ ending)
    (long : 2 < ending.length) (different : Path.extension path ≠ ending) (here : files.locate path = .ok place)
    (there : other.locate (Path.withoutExtension path ++ ending) = .ok found) :
    place ≠ found := by
  obtain ⟨front, stem, isFront, inside, before, shape⟩ := Path.exists_stem path
  have outside : Path.slash ∉ stem ++ ending := by
    simp only [List.mem_append, not_or] at inside ⊢
    exact ⟨inside.1, plain⟩
  obtain ⟨parts, components⟩ := Path.components_append isFront
  have start : other.start (front ++ (stem ++ ending)) = files.start (front ++ (stem ++ Path.extension path)) := by
    rw [start, start, Path.isAbsolute_append isFront outside, Path.isAbsolute_append isFront inside, same]
  have hereWalks := locate_walks here
  have thereWalks := locate_walks there
  rw [before, List.append_assoc, start, components _ outside, Path.walk_append] at thereWalks
  generalize Path.extension path = old at *
  rw [shape, components _ inside, Path.walk_append] at hereWalks
  rintro rfl
  have name : Path.IsName (stem ++ ending) := Path.isName_of_length (by rw [List.length_append]; omega)
  exact different (List.append_cancel_left (Path.walk_inj name (hereWalks.symm.trans thereWalks)))

end Files

end Cb
