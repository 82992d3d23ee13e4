import Cb.Proofs.RewrittenStatements
import Cb.Proofs.ScalingRuns
import Cb.Proofs.Termination

/-! Whole programs of a source and of a rewritten one. Neither the case of names matters, nor the blanks between
tokens, except before the parenthesis of a call. -/

namespace Cb

namespace Rewriting.Scopes

variable {w : Rewriting} {s t : Scope}

theorem added (scopes : w.Scopes s t) (same : g.relocated w.view = f.relocated w.view)
    (unreserved : isReserved f.name = false) :
    (∃ extended extendedToo, s.addFunction f = .ok extended ∧ t.addFunction g = .ok extendedToo ∧
      w.Scopes extended extendedToo) ∨
    ∃ error errorToo, s.addFunction f = .error error ∧ t.addFunction g = .error errorToo := by
  have registered : (Scope.register g t.functions).map (List.map (Function.relocated w.view)) =
      (Scope.register f s.functions).map (List.map (Function.relocated w.view)) := by
    rw [← Scope.register_relocated, ← Scope.register_relocated, same, scopes.functions]
  simp only [Scope.addFunction]
  cases first : Scope.register f s.functions <;> cases second : Scope.register g t.functions <;>
    rw [first, second] at registered <;> try cases registered
  · exact .inr ⟨_, _, rfl, rfl⟩
  · refine .inl ⟨_, _, rfl, rfl, scopes.types, scopes.typesToo, scopes.stack, Except.ok.inj registered,
      scopes.isVariable, fun known member => ?_⟩
    rcases Scope.mem_of_register first member with rfl | member
    · exact unreserved
    · exact scopes.isFunction known member

theorem implemented (scopes : w.Scopes s t) (name : Bytes) (same : mirrored.relocated w.view = body.relocated w.view) :
    w.Scopes (s.implement name body) (t.implement name mirrored) where
  types := scopes.types
  typesToo := scopes.typesToo
  stack := scopes.stack
  functions := by
    rw [Scope.implement, Scope.implement, Scope.implement_relocated, Scope.implement_relocated, scopes.functions, same]
  isVariable := scopes.isVariable
  isFunction f member := by
    obtain ⟨known, listed, rfl⟩ := List.mem_map.mp member
    have unreserved := scopes.isFunction known listed
    split
    · exact unreserved
    · exact unreserved

theorem withParams (scopes : w.Scopes s t) (unreserved : ∀ param ∈ params, isReserved param.name = false) :
    w.Scopes (Rule.defineParams s params) (Rule.defineParams t params) := by
  induction params generalizing s t with
  | nil => exact scopes
  | cons param rest ih =>
    obtain ⟨first, others⟩ := List.forall_mem_cons.mp unreserved
    exact ih (scopes.defined first param.ty param.ty.size).2 others

end Rewriting.Scopes

namespace Rule

open Rewriting

variable {w : Rewriting} {settings : Settings} {l : Last} {st : List Bracket} {c d : Checkpoint}

def ReadsParams (w : Rewriting) (st : List Bracket) (both mirrored : List Param × Bool) (r twin : Reader) : Prop :=
  (mirrored = both ∧ ∀ param ∈ both.1, isReserved param.name = false) ∧ w.Loose ⟨.start, st⟩ r twin

theorem params_tracks (n k : Nat) (seen : List Bytes) (l : Last) :
    Tracks w settings (w.Loose ⟨l, .head :: st⟩) (params c n seen) (params d k seen) (ReadsParams w st) := by
  induction n generalizing k seen l with
  | zero => exact .exhausted
  | succ n ih =>
    cases k with
    | zero => exact .exhaustedToo
    | succ k =>
      refine .skip <| .choose ⟨.start, st⟩ rfl rfl (.pure fun r twin here => ⟨⟨rfl, nofun⟩, here⟩) ?_
      refine dataType_tracks.orReject.bind fun ty mirrored => .assuming fun sameTy => ?_
      rw [sameTy]
      refine .ite Iff.rfl .reject <| .peek (fun _ _ => id) fun code mirrored same => ?_
      have continued (l : Last) (found : Option Bytes) (unreserved : isReserved (found.getD []) = false) :
          Tracks w settings (w.Level ⟨l, .head :: st⟩)
            (laterParams c n seen ty found) (laterParams d k seen ty found) (ReadsParams w st) := by
        have rest (l : Last) : Tracks w settings (w.Loose ⟨l, .head :: st⟩)
            (do return consParam ty found (← params c n (found.toList ++ seen)))
            (do return consParam ty found (← params d k (found.toList ++ seen))) (ReadsParams w st) := by
          refine (ih k _ l).bind fun both mirrored => .assuming fun known => .pure fun r twin here => ⟨?_, here⟩
          obtain ⟨rfl, others⟩ := known
          exact ⟨rfl, List.forall_mem_cons.mpr ⟨unreserved, others⟩⟩
        refine .test (fun _ _ => Level.joint) (by decide) (by decide) (fun _ => mark_of_isPlain (by decide) _)
          ((rest .start).of_pre fun _ _ joint => joint.toLoose) ?_
        refine .peek (fun _ _ => id) fun code mirrored same => .ite (not_congr (same _ (by decide))) .reject ?_
        exact (rest l).of_pre fun _ _ level => level.toLoose
      refine .ite ?_ (continued .typed none (by decide)) ?_
      · rw [Bool.or_eq_true, Bool.or_eq_true, decide_eq_true_eq, decide_eq_true_eq, decide_eq_true_eq,
          decide_eq_true_eq, same _ (by decide), same _ (by decide)]
      · refine (name_tracks _).bind fun name mirrored => .assuming fun known => ?_
        obtain ⟨rfl, unreserved⟩ := known
        exact .ite Iff.rfl .reject <| .skip (continued .declared (some _) unreserved)

def IsScoped (w : Rewriting) (pre : Reader → Reader → Prop) : Prop :=
  ∀ r twin, pre r twin → w.Scopes r.scope twin.scope ∧
    ∀ s t, w.Scopes s t → pre { r with scope := s } { twin with scope := t }

theorem isScoped_loose : IsScoped w (w.Loose m) :=
  fun _ _ here => ⟨here.scopes, fun _ _ scopes => ⟨here.alike, scopes⟩⟩

theorem isScoped_level : IsScoped w (w.Level m) :=
  fun _ _ here => ⟨here.scopes, fun _ _ scopes => ⟨⟨here.alike, scopes⟩, here.shown, here.shownToo⟩⟩

theorem register_tracks (isScoped : IsScoped w pre) (same : g.relocated w.view = f.relocated w.view)
    (unreserved : isReserved f.name = false) :
    Tracks w settings pre (register f c) (register g d) fun _ _ => pre := by
  intro r twin here
  obtain ⟨scopes, changed⟩ := isScoped r twin here
  simp only [register, bind, Rule.bind, scope]
  rcases scopes.added same unreserved with
    ⟨extended, extendedToo, ran, ranToo, further⟩ | ⟨error, errorToo, ran, ranToo⟩
  · rw [ran, ranToo]
    exact changed extended extendedToo further
  · rw [ran, ranToo]
    trivial

theorem function_tracks (n k : Nat) :
    Tracks w settings (w.Level ⟨.start, []⟩) (function n) (function k) fun _ _ => w.Loose ⟨.start, []⟩ := by
  refine .checkpoint fun c d marks => dataType_tracks.orReject.bind fun returns mirrored => .assuming fun same => ?_
  rw [same]
  refine (name_tracks _).bind fun name mirrored => .assuming fun known => ?_
  obtain ⟨rfl, unreserved⟩ := known
  refine .ite Iff.rfl .reject <| .update (fun r twin here => ⟨here.alike, here.scopes.pushed rfl⟩) <| .skip ?_
  refine .expect ⟨.start, [.head]⟩ rfl rfl ?_
  refine (params_tracks n k [] .start).bind fun both mirrored => .assuming fun known => ?_
  obtain ⟨rfl, named⟩ := known
  have exits {r twin : Reader} (here : w.Loose ⟨.start, []⟩ r twin) : w.Loose ⟨.start, []⟩
      { r with scope := r.scope.exitFunction.2 } { twin with scope := twin.scope.exitFunction.2 } :=
    ⟨here.alike, (here.scopes.exited .functionMark).2⟩
  refine .skip <| .choose ⟨.start, []⟩ rfl rfl ?_ ?_
  · refine (register_tracks isScoped_loose ?_ unreserved).bind fun _ _ => .updateLast fun r twin => exits
    simp only [Function.relocated, marks.view]
  · refine .ite Iff.rfl .reject <| (register_tracks isScoped_level ?_ unreserved).bind fun _ _ => ?_
    · simp only [Function.relocated, marks.view]
    have framed {r twin : Reader} (here : w.Level ⟨.start, []⟩ r twin) : w.Level ⟨.start, []⟩
        { r with scope := (defineParams r.scope mirrored.1).enterFrame }
        { twin with scope := (defineParams twin.scope mirrored.1).enterFrame } :=
      (isScoped_level r twin here).2 _ _ (((here.scopes.withParams named).pushed (by decide)).pushed (by decide))
    refine .update (fun r twin => framed) ?_
    refine ((statementsTrack w settings n k).block _ []).orReject.read fun body bodyToo sameBody => ?_
    refine .update (fun r twin => exits) <| .updateLast fun r twin here => ⟨here.alike, ?_⟩
    exact here.scopes.implemented _ sameBody

theorem functions_tracks (depth depthToo n k : Nat) :
    Tracks w settings (w.Level ⟨.start, []⟩) (functions depth n) (functions depthToo k)
      fun _ _ => w.Loose ⟨.start, []⟩ := by
  induction n generalizing k with
  | zero => exact .exhausted
  | succ n ih =>
    cases k with
    | zero => exact .exhaustedToo
    | succ k =>
      refine .ahead rfl ?_ ?_
      · exact .pure fun r twin here => here.toLoose
      · exact (function_tracks depth depthToo).bind fun _ _ => .skip (ih k)

end Rule

def Program.unplaced (program : Program) : Program := program.relocated fun _ => .start

namespace Rewriting

variable {w : Rewriting}

theorem scopes_nil : w.Scopes {} {} := ⟨rfl, rfl, rfl, rfl, nofun, nofun⟩

theorem Alike.parse (alike : w.Alike {} true .start .start) (settings : Settings) :
    (Cb.parse ⟨w.other, settings⟩).program.toOption.map (Program.relocated w.view) =
      (Cb.parse ⟨w.source, settings⟩).program.toOption.map (Program.relocated w.view) := by
  have begun : w.Loose {} {} {} := ⟨⟨true, alike⟩, scopes_nil⟩
  have tracks : Rule.Tracks w settings (w.Loose {})
      (Rule.skip >>= fun _ => Rule.functions w.source.depth (w.source.size + 1))
      (Rule.skip >>= fun _ => Rule.functions w.other.depth (w.other.size + 1)) fun _ _ => w.Loose {} :=
    .skip (Rule.functions_tracks _ _ _ _)
  rw [parse_eq, parse_eq]
  rcases (tracks {} {} begun).outcomes with ⟨_, r, _, twin, ran, ranToo, read⟩ | ⟨_, _, ran, ranToo⟩ | ran | ranToo
  · have scopes : w.Scopes r.scope twin.scope := read.scopes
    rw [ran, ranToo]
    exact congrArg (fun functions => some (⟨functions⟩ : Program)) scopes.functions
  · rw [ran, ranToo]
    rfl
  · exact absurd ran (Rule.reading_unspent ⟨w.source, settings⟩)
  · exact absurd ranToo (Rule.reading_unspent ⟨w.other, settings⟩)

end Rewriting

/-- Names do not depend on case: a source with names in another case is accepted if the source is, and it is the same
program then, with the same positions. -/
theorem parse_respelled {source other : Source} (respelled : source.Respelled other) (settings : Settings) :
    (parse ⟨other, settings⟩).program.toOption = (parse ⟨source, settings⟩).program.toOption := by
  have same := Rewriting.Alike.parse respelled settings
  have view : Program.relocated (Rewriting.view ⟨source, other, true, false⟩) = id := funext Program.relocated_id
  rwa [view, Option.map_id] at same

def mixedCase : Source where
  lines := #["int Sum(int* Values, byte Count) \x7b", "  int Total = 'T';",
    "  while (Count > 0) Total = Total + Values[--Count]; return Total; \x7d"]
  origins := #[]

def mixedCaseRespelled : Source where
  lines := #["INT sum(Int* VALUES, BYTE count) \x7b", "  int TOTAL = 'T';",
    "  while (cOUNT > 0) total = Total + values[--COUNT]; return tOtal; \x7d"]
  origins := #[]

theorem parse_respelled_mixedCase :
    mixedCase.Respelled mixedCaseRespelled ∧ (parse ⟨mixedCase, {}⟩).program.toOption.isSome = true ∧
      (parse ⟨mixedCaseRespelled, {}⟩).program.toOption = (parse ⟨mixedCase, {}⟩).program.toOption := by
  have respelled : mixedCase.Respelled mixedCaseRespelled := Rewriting.alike_of_rewrites (n := 200) (by decide +kernel)
  exact ⟨respelled, by decide +kernel, parse_respelled respelled {}⟩

/-- Layout does not matter between tokens, except before the parenthesis of a call: a source with more blanks is
accepted if the source is, and it is the same program then, but for positions. A minus sign where an operand may begin
is part of the number or character behind it. -/
theorem parse_respaced {source other : Source} (respaced : source.Respaced other) (settings : Settings) :
    (parse ⟨other, settings⟩).program.toOption.map Program.unplaced =
      (parse ⟨source, settings⟩).program.toOption.map Program.unplaced :=
  Rewriting.Alike.parse respaced settings

def dense : Source where
  lines := #["int f(int a)\x7bif(a>=-1)return f(a-1)+'x';return(byte)++a;\x7d"]
  origins := #[]

def airy : Source where
  lines := #["int f ( int", " a ) \x7b if ( a >= -1 )", "return f( a - 1 ) + 'x' ;", "return ( byte ) ++ a ; \x7d", ""]
  origins := #[]

theorem parse_respaced_airy :
    dense.Respaced airy ∧ (parse ⟨dense, {}⟩).program.toOption.isSome = true ∧
      (parse ⟨airy, {}⟩).program.toOption.map Program.unplaced =
        (parse ⟨dense, {}⟩).program.toOption.map Program.unplaced := by
  have respaced : dense.Respaced airy := Rewriting.alike_of_rewrites (n := 200) (by decide +kernel)
  exact ⟨respaced, by decide +kernel, parse_respaced respaced {}⟩

def callTogether : Source where
  lines := #["int f() \x7b return 1; \x7d", "int g() \x7b return f(); \x7d"]
  origins := #[]

def callApart : Source where
  lines := #["int f() \x7b return 1; \x7d", "int g() \x7b return f (); \x7d"]
  origins := #[]

theorem parse_callApart :
    (parse ⟨callTogether, {}⟩).program.toOption.isSome = true ∧
      (parse ⟨callApart, {}⟩).program.toOption.isSome = false := by
  constructor <;> decide +kernel

end Cb
