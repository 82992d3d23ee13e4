import Cb.Proofs.ProgramRules

/-! A source is read function after function. The table keeps the order in which the names come up first, every
body in it is one that was read, and the reader stops where it sees the end of the source. -/

namespace Cb

def Source.byteAt? (source : Source) (pos : Position) : Option UInt8 :=
  (source.lines[pos.line]?).bind fun text => text[pos.column]?

theorem Source.mem_of_byteAt? {source : Source} {byte : UInt8} (found : source.byteAt? pos = some byte) :
    pos.line < source.lines.size ∧ ∃ line ∈ source.lines, byte ∈ line := by
  obtain ⟨line, here, there⟩ := Option.bind_eq_some_iff.mp found
  obtain ⟨bound, same⟩ := Array.getElem?_eq_some_iff.mp here
  exact ⟨bound, line, same ▸ Array.getElem_mem bound, List.mem_of_getElem? there⟩

variable {env : Env} {r : Reader}

theorem Reader.peek_eq_endOfFile_iff :
    r.peek source = endOfFile ↔ r.atEnd source = true ∨ source.byteAt? r.pos = some 0 := by
  simp only [peek, atEnd, Source.byteAt?, decide_eq_true_eq]
  cases here : source.lines[r.pos.line]? with
  | none =>
    have beyond : source.lines.size ≤ r.pos.line := by simpa using here
    simp [beyond]
  | some text =>
    have inside : ¬ source.lines.size ≤ r.pos.line := by
      have bound := (Array.getElem?_eq_some_iff.mp here).1
      omega
    cases byte : text[r.pos.column]? with
    | none => simp [inside, byte, endOfLine, endOfFile]
    | some b => simp [inside, byte, endOfFile, ← UInt8.toNat_inj]

@[simp] theorem mem_distinct : name ∈ distinct names ↔ name ∈ names := by
  induction names with
  | nil => rfl
  | cons first rest ih =>
    simp only [distinct, List.mem_cons, List.mem_filter, ih, decide_eq_true_eq]
    grind

theorem distinct_filter (names : List Bytes) (keep : Bytes → Bool) :
    (distinct names).filter keep = distinct (names.filter keep) := by
  induction names with
  | nil => rfl
  | cons name rest ih =>
    have swapped : ((distinct rest).filter (· ≠ name)).filter keep = ((distinct rest).filter keep).filter (· ≠ name) := by
      simp only [List.filter_filter, Bool.and_comm]
    by_cases kept : keep name = true
    · rw [distinct, List.filter_cons_of_pos kept, List.filter_cons_of_pos kept, distinct, swapped, ih]
    · rw [distinct, List.filter_cons_of_neg kept, List.filter_cons_of_neg kept, swapped, ih]
      refine List.filter_eq_self.mpr fun other member => ?_
      have isKept : keep other = true := (List.mem_filter.mp (mem_distinct.mp member)).2
      simpa using fun same : other = name => kept (same ▸ isKept)

theorem distinct_eq_self (nodup : names.Nodup) : distinct names = names := by
  induction names with
  | nil => rfl
  | cons name rest ih =>
    obtain ⟨new, others⟩ := List.nodup_cons.mp nodup
    rw [distinct, ih others]
    refine congrArg _ (List.filter_eq_self.mpr fun other member => ?_)
    simpa using fun same : other = name => new (same ▸ member)

theorem distinct_append_cons (known : name ∈ before) (after : List Bytes) :
    distinct (before ++ name :: after) = distinct (before ++ after) := by
  induction before with
  | nil => cases known
  | cons first rest ih =>
    rw [List.cons_append, List.cons_append, distinct, distinct]
    rcases List.mem_cons.mp known with rfl | later
    · rw [distinct_filter, distinct_filter]
      simp
    · rw [ih later]

theorem Rule.block_isBlock (ran : block n place env r = .ok s after) :
    ∃ body cleanup, s = .block r.pos body cleanup := by
  cases n with
  | zero => cases ran
  | succ n =>
    rw [block] at ran
    obtain ⟨c, _, isHere, ran⟩ := bind_ok ran
    cases isHere
    obtain ⟨_, _, _, ran⟩ := bind_ok ran
    split at ran
    · cases ran
      exact ⟨_, _, rfl⟩
    · obtain ⟨_, _, _, ran⟩ := bind_ok ran
      split at ran
      · obtain ⟨_, _, _, ran⟩ := bind_ok ran
        obtain ⟨_, _, _, ran⟩ := bind_ok ran
        obtain ⟨_, _, _, ran⟩ := bind_ok ran
        obtain ⟨_, _, _, ran⟩ := bind_ok ran
        cases ran
        exact ⟨_, _, rfl⟩
      · obtain ⟨_, _, _, ran⟩ := bind_ok ran
        obtain ⟨_, _, _, ran⟩ := bind_ok ran
        obtain ⟨_, _, _, ran⟩ := bind_ok ran
        cases ran
        exact ⟨_, _, rfl⟩

structure Function.ReadsBody (env : Env) (table : List Function) (f : Function) (body : Stmt) : Prop where
  calls : f.calls = distinct body.calls
  read : ∃ (frame : Frame) (n : Nat) (inside outside : Reader), frame.params = f.params ∧ frame.returns = f.returns ∧
    frame.functions.map (·.name) ⊆ table.map (·.name) ∧ inside.scope = frame.scope ∧
    Rule.block n { returns := f.returns } env inside = .ok body outside

theorem Function.ReadsBody.grow {f : Function} {body : Stmt} (reads : f.ReadsBody env older body)
    (grows : older.map (·.name) ⊆ newer.map (·.name)) :
    f.ReadsBody env newer body := by
  obtain ⟨calls, frame, n, inside, outside, params, returns, known, opened, read⟩ := reads
  exact ⟨calls, frame, n, inside, outside, params, returns, List.Subset.trans known grows, opened, read⟩

def BodiesRead (env : Env) (table : List Function) : Prop :=
  ∀ f ∈ table, ∀ body, f.body = some body → f.ReadsBody env table body

theorem Scope.map_name_of_register (made : register f table = .ok result) :
    result.map (·.name) =
      if f.name ∈ table.map (·.name) then table.map (·.name) else table.map (·.name) ++ [f.name] := by
  rcases register_cases made with ⟨before, known, after, rfl, rfl, agrees⟩ | ⟨rfl, missing⟩
  · simp [agrees.1]
  · have new : f.name ∉ table.map (·.name) := by simpa using missing
    rw [if_neg new]
    simp

namespace Rule.Adds

variable {env : Env} {n : Nat} {s t : Scope} {name : Bytes}

theorem map_name (adds : Adds env n s name t) :
    t.functions.map (·.name) =
      if name ∈ s.functions.map (·.name) then s.functions.map (·.name) else s.functions.map (·.name) ++ [name] := by
  cases adds with
  | declared _ _ made => exact Scope.map_name_of_register made
  | defined _ _ made =>
    rw [Scope.implement_names]
    exact Scope.map_name_of_register made

theorem bodiesRead (adds : Adds env n s name t) (settled : Settled s) (bodies : BodiesRead env s.functions) :
    BodiesRead env t.functions := by
  have grows : s.functions.map (·.name) ⊆ t.functions.map (·.name) := by
    rw [adds.map_name]
    split
    · exact List.Subset.refl _
    · exact List.subset_append_left _ _
  -- the function that was read has no body yet when it is registered
  have older {f g : Function} {table : List Function} (bodiless : f.body = none)
      (made : Scope.register f s.functions = .ok table) (there : g ∈ table) {body : Stmt} (implemented : g.body = some body) :
      g.ReadsBody env t.functions body := by
    rcases Scope.mem_of_register made there with rfl | old
    · rw [bodiless] at implemented
      cases implemented
    · exact (bodies g old body implemented).grow grows
  cases adds with
  | declared _ bodiless made => exact fun g there body implemented => older bodiless made there implemented
  | @defined f frame body inside outside sound bodiless made params returns opened read =>
    obtain ⟨isTable, _, registered⟩ := settled.table.register sound bodiless made
    intro later member code implemented
    obtain ⟨g, there, rfl⟩ := List.mem_map.mp member
    split at implemented
    · rename_i same
      cases implemented
      obtain rfl : g = f := isTable.unique there registered same
      rw [if_pos rfl]
      refine ⟨rfl, frame, n, inside, outside, params, returns, ?_, opened, read⟩
      rw [Scope.implement_names]
      exact List.Subset.refl _
    · rename_i other
      rw [if_neg other]
      exact older bodiless made there implemented

end Rule.Adds

inductive ReadsOn (env : Env) : Reader → List Bytes → Reader → Prop
  | stop {r : Reader} (ended : r.peek env.source = endOfFile) : ReadsOn env r [] r
  | function {r middle after last : Reader} {returns : Ty} {name : Bytes} {names : List Bytes}
      (goesOn : r.peek env.source ≠ endOfFile) (heading : Rule.heading env r = .ok (returns, name) middle)
      (read : Rule.function env.source.depth env r = .ok () after)
      (others : ReadsOn env (after.skip env.source).2 names last) : ReadsOn env r (name :: names) last

namespace ReadsOn

variable {env : Env} {r last : Reader} {names : List Bytes}

theorem stops (reads : ReadsOn env r names last) : last.peek env.source = endOfFile := by
  induction reads with
  | stop ended => exact ended
  | function _ _ _ _ ih => exact ih

theorem map_name (reads : ReadsOn env r names last) (settled : Rule.Settled r.scope) :
    last.scope.functions.map (·.name) = distinct (r.scope.functions.map (·.name) ++ names) := by
  induction reads with
  | stop => rw [List.append_nil, distinct_eq_self settled.table.distinct]
  | @function r _ after _ _ name names _ heading read _ ih =>
    obtain ⟨_, _, _, again, adds⟩ := Rule.function_adds settled read
    cases heading.symm.trans again
    have skipped : (after.skip env.source).2.scope = after.scope := Reader.skipUpTo_scope env.source _ after
    rw [ih (by rw [skipped]; exact adds.settled settled), skipped, adds.map_name]
    split
    · rename_i known
      rw [distinct_append_cons known]
    · rw [List.append_assoc]
      rfl

end ReadsOn

theorem Rule.functions_readsOn (settled : Settled r.scope) (ran : functions env.source.depth n env r = .ok () last) :
    ∃ names, ReadsOn env r names last := by
  induction n generalizing r with
  | zero => cases ran
  | succ n ih =>
    obtain ⟨code, _, peeked, ran⟩ := bind_ok ran
    cases peeked
    split at ran
    · rename_i ended
      cases ran
      exact ⟨[], .stop ended⟩
    · rename_i goesOn
      obtain ⟨_, after, read, ran⟩ := bind_ok ran
      obtain ⟨_, _, skipped, ran⟩ := bind_ok ran
      cases skipped
      obtain ⟨_, name, _, heading, adds⟩ := function_adds settled read
      have next : Settled (after.skip env.source).2.scope := by
        rw [Reader.skip, Reader.skipUpTo_scope]
        exact adds.settled settled
      obtain ⟨names, others⟩ := ih next ran
      exact ⟨name :: names, .function goesOn heading read others⟩

structure ReadThrough (env : Env) (program : Program) (names : List Bytes) (last : Reader) : Prop where
  reading : env.reading = .ok () last
  functions : program.functions = last.scope.functions
  /-- From the first character that is no blank, one function after the other is read. -/
  inTurn : ReadsOn env (Reader.skip env.source {}).2 names last

theorem readThrough_of_parse (parsed : (parse env).program = .ok program) :
    ∃ names last, ReadThrough env program names last := by
  obtain ⟨last, reading, functions⟩ := reading_of_parse parsed
  obtain ⟨_, first, skipped, ran⟩ := Rule.bind_ok reading
  cases skipped
  have settled : Rule.Settled (Reader.skip env.source {}).2.scope := by
    rw [Reader.skip, Reader.skipUpTo_scope]
    exact .empty
  obtain ⟨names, inTurn⟩ := Rule.functions_readsOn settled ran
  exact ⟨names, last, reading, functions, inTurn⟩

namespace ReadThrough

variable {env : Env} {program : Program} {names : List Bytes} {last : Reader}

theorem begins (env : Env) : (Reader.skip env.source {}).2.scope = {} := Reader.skipUpTo_scope env.source _ _

theorem bodiesRead (through : ReadThrough env program names last) : BodiesRead env program.functions := by
  rw [through.functions]
  refine (Env.reading_keeps (p := BodiesRead env) nofun (fun settled bodies read => ?_) through.reading).2
  obtain ⟨_, _, _, _, adds⟩ := Rule.function_adds settled read
  exact adds.bodiesRead settled bodies

theorem map_name (through : ReadThrough env program names last) :
    program.functions.map (·.name) = distinct names := by
  rw [through.functions, through.inTurn.map_name (by rw [begins]; exact .empty), begins]
  rfl

end ReadThrough

/-- The source is read to its end, or up to a zero byte, where the reader takes the source to end. -/
theorem accepted_read_to_end {env : Env} {program : Program} (parsed : (parse env).program = .ok program) :
    ∃ names last, ReadThrough env program names last ∧
      (last.atEnd env.source = false ↔ env.source.byteAt? last.pos = some 0) ∧
      ((∀ line ∈ env.source.lines, 0 ∉ line) → last.atEnd env.source = true) := by
  obtain ⟨names, last, through⟩ := readThrough_of_parse parsed
  have stopped := Reader.peek_eq_endOfFile_iff.mp through.inTurn.stops
  refine ⟨names, last, through, ⟨fun short => ?_, fun zero => ?_⟩, fun plain => ?_⟩
  · rcases stopped with ended | zero
    · rw [ended] at short
      cases short
    · exact zero
  · have inside := (Source.mem_of_byteAt? zero).1
    simpa [Reader.atEnd] using inside
  · rcases stopped with ended | zero
    · exact ended
    · obtain ⟨_, line, member, holds⟩ := Source.mem_of_byteAt? zero
      exact absurd holds (plain line member)

def spaced : Env where
  source := { lines := #["", "  void halt();", "", "void main() \x7b halt(); \x7d  ", " "], origins := #[] }
  settings := {}

theorem accepted_read_to_end_spaced :
    ∃ program, (parse spaced).program = .ok program ∧ ∃ names last, ReadThrough spaced program names last ∧
      (last.atEnd spaced.source = false ↔ spaced.source.byteAt? last.pos = some 0) ∧
      ((∀ line ∈ spaced.source.lines, 0 ∉ line) → last.atEnd spaced.source = true) := by
  have accepted : (parse spaced).program.toOption.any (fun _ => true) = true := by decide +kernel
  obtain ⟨program, parsed, _⟩ := exists_of_any accepted
  exact ⟨program, parsed, accepted_read_to_end parsed⟩

def cutShort : Env where
  source := { lines := #["void main() \x7b\x7d\x00 int f("], origins := #[] }
  settings := {}

/-- What comes after a zero byte is not looked at. -/
theorem not_read_to_end_cutShort :
    ∃ program names last, (parse cutShort).program = .ok program ∧ ReadThrough cutShort program names last ∧
      last.atEnd cutShort.source = false := by
  have accepted : (parse cutShort).program.toOption.any (fun _ => true) = true := by decide +kernel
  have short : cutShort.reading.any (fun _ last => !last.atEnd cutShort.source) = true := by decide +kernel
  obtain ⟨program, parsed, _⟩ := exists_of_any accepted
  obtain ⟨names, last, through⟩ := readThrough_of_parse parsed
  rw [through.reading] at short
  exact ⟨program, names, last, parsed, through, by simpa [Reply.any] using short⟩

end Cb
