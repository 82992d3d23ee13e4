import Cb.Proofs.ReadTexts
import Cb.Proofs.WritableForms

/-! Casts of casts. Behind the type of a cast a parenthesis opens an expression, never the next cast, so a cast whose
operand is a cast is read only if that operand stands in parentheses of its own. -/

namespace Cb

def castText (t : Ty) : Bytes := byte '(' :: t.text ++ [byte ')']

theorem castText_append (t : Ty) (rest : Bytes) : castText t ++ rest = byte '(' :: (t.text ++ byte ')' :: rest) := by
  simp [castText]

theorem castText_length (t : Ty) : (castText t).length = 1 + t.text.length + 1 := by
  simp [castText, Nat.add_comm]

namespace Rule

open Source

variable {env : Env} {s : Scope} {p q : Position} {n : Nat}

variable {rest written : Bytes} {t : Ty} {inner e : Expr} {v : Variable}

theorem castTarget_takes (named : t.IsNamed) (usual : s.IsUsual) (here : env.source.restAt p = castText t ++ rest)
    (shown : rest.head?.any (!Reader.isSkipped ·.toNat) = true) :
    Takes env s p (castTarget c) t (p.right (castText t).length) := by
  rw [castText_append] at here
  have behind := restAt_right [byte '('] here
  have closed := restAt_right _ behind
  have beyond := restAt_right [byte ')'] closed
  refine .bind (.mark here (by decide)) <| .bind (.skip_shown (shown_of_restAt behind (type_shown named _))) <|
    .bind (.orRestore (dataType_takes named usual behind)) <| .bind (.mark closed (by decide)) ?_
  rw [castText_length, ← Position.right_right, ← Position.right_right]
  exact .bind (.skip_shown (shown_of_restAt beyond shown)) (.pure t)

theorem paren_type_unread (named : t.IsNamed) (usual : s.IsUsual) (here : env.source.restAt p = castText t ++ rest)
    (n : Nat) : Unread env s p (paren n) := by
  cases n with
  | zero => exact .exhausted
  | succ n =>
    rw [castText_append] at here
    have behind := restAt_right [byte '('] here
    have word := plainWord_type named behind
    have missing := type_missing named usual
    rw [← wordAt_type named behind] at missing
    have shown := shown_of_restAt behind (type_shown named _)
    exact .checkpoint <| (Takes.mark here (by decide)).unread <| (Takes.skip_shown shown).unread <|
      Unread.bind (.orReject (word.expression_unread missing n))

theorem operand_chain_unread (named : t.IsNamed ∧ u.IsNamed) (usual : s.IsUsual)
    (here : env.source.restAt p = castText t ++ (castText u ++ rest)) (n : Nat) : Unread env s p (operand n) := by
  have opens : env.source.charAt p = '('.toNat := charAt_of_restAt here
  have cast (n : Nat) : Unread env s p (cast n) := by
    cases n with
    | zero => exact .exhausted
    | succ n =>
      have behind := restAt_right _ here
      have opens : env.source.charAt (p.right (castText t).length) = '('.toNat := charAt_of_restAt behind
      -- behind the first type only an expression may open, and the next type starts none
      have operand : Unread env s (p.right (castText t).length) (castOperand n) := by
        refine .peek ?_
        rw [if_pos opens]
        exact paren_type_unread named.2 usual behind n
      intro r after value atScope atPos ran
      rw [cast_eq] at ran
      exact (castTarget_takes named.1 usual here rfl).unread (Unread.bind (.orReject operand)) r after value atScope
        atPos ran
  cases n with
  | zero => exact .exhausted
  | succ n =>
    -- neither does the first type
    refine .orElse (expressionsSettle env n).cast (cast n) <| .peek ?_
    rw [if_pos opens]
    exact paren_type_unread named.1 usual here n

theorem castTree_takes (made : Build.cast inner target = .ok e) :
    Takes env s p (castTree c target inner) e p := by
  have tree : Takes env s p (built (Build.cast inner target) c) e p := by
    rw [made]
    exact .pure e
  have warned (message : Bytes) : Takes env s p (warn .truncation c.pos message) () p := by
    rintro r rfl rfl
    simp only [warn]
    split
    · exact ⟨_, rfl, Reader.remark_scope r _, Reader.remark_pos r _⟩
    · exact ⟨r, rfl, rfl, rfl⟩
  refine tree.bind ?_
  split
  · exact (warned _).bind (.pure e)
  · exact .pure e

theorem cast_takes (named : t.IsNamed) (usual : s.IsUsual) (here : env.source.restAt p = castText t ++ rest)
    (shown : rest.head?.any (!Reader.isSkipped ·.toNat) = true)
    (operand : Takes env s (p.right (castText t).length) (castOperand n) inner q) (made : Build.cast inner t = .ok e) :
    Takes env s p (cast (n + 1)) e q := by
  intro r atScope atPos
  rw [cast_eq]
  exact Takes.bind (castTarget_takes named usual here shown) (.bind (.orReject operand) (castTree_takes made)) r atScope atPos

theorem castOperand_takes (names : s.HasVariable written v) (here : env.source.restAt p = written ++ rest)
    (ends : NameEnds env.source (p.right written.length)) (usual : s.IsUsual)
    (enough : 16 * env.source.remaining p + 1 < n) :
    Takes env s p (castOperand n) (Build.var p (lower written) v.ty v.offset) (p.right written.length) := by
  refine .peek ?_
  rw [if_neg ((plainWord_name names here ends usual).ne rfl)]
  exact value_takes names here ends usual enough

def castAll (types : List Ty) (e : Expr) : Except BuildError Expr :=
  types.foldr (fun t made => made >>= fun inner => Build.cast inner t) (.ok e)

def castChain (written : Bytes) (types : List Ty) : Bytes := types.flatMap castText ++ written

def nestedCasts (written : Bytes) : List Ty → Bytes
  | [] => written
  | [t] => castText t ++ written
  | t :: u :: types => castText t ++ byte '(' :: (nestedCasts written (u :: types) ++ [byte ')'])

def nestedStart : List Ty → Nat
  | [] => 0
  | [t] => (castText t).length
  | t :: u :: types => (castText t).length + (1 + nestedStart (u :: types))

theorem castAll_ty (made : castAll (u :: types) e = .ok inner) : inner.ty = u := by
  change (castAll types e >>= fun inner => Build.cast inner u) = .ok inner at made
  cases others : castAll types e with
  | error error =>
    rw [others] at made
    cases made
  | ok result =>
    rw [others] at made
    change Build.cast result u = .ok inner at made
    rw [Build.cast] at made
    split at made
    · cases made
      exact Build.convert_ty result u
    · cases made

theorem cast_of_canCast (can : e.ty.canCast t = true) : Build.cast e t = .ok (Build.convert e t) := by
  rw [Build.cast, if_pos can]

theorem nameEnds_closed (here : env.source.restAt q = byte ')' :: rest) : NameEnds env.source q := by
  have closed : env.source.charAt q = ')'.toNat := charAt_of_restAt here
  have skipped : env.source.skipped q = q := skipped_of_shown (shown_of_restAt here rfl)
  refine ⟨?_, ?_, ?_⟩
  · rw [closed]
    decide
  · rw [skipped, closed]
    decide
  · rw [skipped, closed]
    decide

theorem name_shown (names : s.HasVariable written v) (rest : Bytes) :
    (written ++ rest).head?.any (!Reader.isSkipped ·.toNat) = true := by
  have starts := names.starts
  cases written with
  | nil => cases starts
  | cons b written =>
    change (!Reader.isSkipped b.toNat) = true
    change startsWord b.toNat = true at starts
    simp only [startsWord, isLetter, Bool.or_eq_true, Bool.and_eq_true, beq_iff_eq, decide_eq_true_eq] at starts
    simp only [Reader.isSkipped, endOfLine, Bool.not_eq_true', Bool.or_eq_false_iff, beq_eq_false_iff_ne]
    omega

theorem cast_paren_takes (usual : s.IsUsual) (named : t.IsNamed)
    (here : env.source.restAt p = castText t ++ byte '(' :: (text ++ byte ')' :: rest))
    (shown : (text ++ byte ')' :: rest).head?.any (!Reader.isSkipped ·.toNat) = true)
    (opens : q = p.right (castText t).length)
    (inside : Takes env s (q.right 1) (operand (n + 1)) inner (q.right (1 + text.length)))
    (can : inner.ty.canCast t = true) :
    Takes env s p (cast (n + 4)) (Build.convert inner t) (q.right (text.length + 2)) := by
  subst opens
  have opened := restAt_right _ here
  have behind := restAt_right [byte '('] opened
  have closes := restAt_right _ behind
  have isOpening : env.source.charAt (p.right (castText t).length) = '('.toNat := charAt_of_restAt opened
  rw [List.length_singleton, Position.right_right] at closes
  have expression := expression_takes inside (charAt_of_restAt closes)
  have paren := paren_takes opened (shown_of_restAt behind shown) expression
  refine cast_takes named usual here rfl (.peek ?_) (cast_of_canCast can)
  rw [if_pos isOpening]
  exact paren

theorem nested_takes (names : s.HasVariable written v) (usual : s.IsUsual) (isNamed : ∀ t ∈ types, t.IsNamed)
    (some : types ≠ []) (casts : (types ++ [v.ty]).IsChain fun target source => source.canCast target = true)
    (here : env.source.restAt p = nestedCasts written types ++ rest)
    (ends : NameEnds env.source (p.right (nestedCasts written types).length))
    (enough : 16 * env.source.remaining p + 2 < n) :
    ∃ e, castAll types (Build.var (p.right (nestedStart types)) (lower written) v.ty v.offset) = .ok e ∧
      Takes env s p (operand n) e (p.right (nestedCasts written types).length) := by
  induction types generalizing p n rest with
  | nil => exact absurd rfl some
  | cons t types ih =>
    have named := isNamed t List.mem_cons_self
    have long := castText_length t
    cases types with
    | nil =>
      rw [nestedCasts, List.append_assoc] at here
      rw [nestedCasts, List.length_append, ← Position.right_right] at ends
      have behind := restAt_right _ here
      have fewer := remaining_right _ here
      obtain ⟨k, rfl⟩ : ∃ k, n = k + 2 := ⟨n - 2, by omega⟩
      have operand := castOperand_takes names behind ends usual (n := k) (by omega)
      have can : v.ty.canCast t = true := by simpa using casts
      refine ⟨_, cast_of_canCast can, ?_⟩
      rw [nestedCasts, List.length_append, ← Position.right_right]
      exact .orElse (cast_takes named usual here (name_shown names rest) operand (cast_of_canCast can))
    | cons u types =>
      rw [nestedCasts, List.append_assoc, List.cons_append, List.append_assoc, List.singleton_append] at here
      have opened := restAt_right _ here
      have behind := restAt_right [byte '('] opened
      have closes := restAt_right _ behind
      have first := remaining_right _ here
      have second := remaining_right [byte '('] opened
      have shown : (nestedCasts written (u :: types) ++ byte ')' :: rest).head?.any (!Reader.isSkipped ·.toNat) = true := by
        cases types <;> rfl
      rw [List.length_singleton] at second behind closes
      -- four calls lead to the operand inside, and each character that was read pays for sixteen
      obtain ⟨k, rfl⟩ : ∃ k, n = k + 5 := ⟨n - 5, by omega⟩
      obtain ⟨can, others⟩ := List.isChain_cons_cons.mp casts
      obtain ⟨inner, made, inside⟩ := ih (n := k + 1) (List.forall_mem_cons.mp isNamed).2 (List.cons_ne_nil _ _)
        others behind (nameEnds_closed closes) (by omega)
      have fits : inner.ty.canCast t = true := by rwa [castAll_ty made]
      rw [Position.right_right (p.right _) 1] at inside
      have whole := cast_paren_takes usual named here shown rfl inside fits
      refine ⟨Build.convert inner t, ?_, ?_⟩
      · rw [Position.right_right, Position.right_right] at made
        change (castAll (u :: types) _ >>= fun inner => Build.cast inner t) = _
        rw [nestedStart, made]
        exact cast_of_canCast fits
      · rw [Position.right_right] at whole
        rw [nestedCasts, List.length_append, List.length_cons, List.length_append]
        exact .orElse whole

/-- The operand at `r` is the variable with all these casts around it. It stands `start` characters to the right, and
the reader moves to the end of the text. -/
def ReadsCasts (env : Env) (n : Nat) (r : Reader) (types : List Ty) (written : Bytes) (v : Variable) (start stop : Nat) :
    Prop :=
  ∃ e after, castAll types (Build.var (r.pos.right start) (lower written) v.ty v.offset) = .ok e ∧
    operand n env r = .ok e after ∧ after.pos = r.pos.right stop ∧ after.scope = r.scope

/-- Several casts in a row are read only if each operand that is a cast stands in parentheses. Without them the operand is
refused, and the reader is back where it was. -/
theorem casts_read_only_in_parentheses {r : Reader} {written : Bytes} {v : Variable} {types : List Ty} {rest : Bytes}
    (usual : r.scope.IsUsual) (names : r.scope.HasVariable written v) (isNamed : ∀ t ∈ types, t.IsNamed)
    (some : types ≠ []) (casts : (types ++ [v.ty]).IsChain fun target source => source.canCast target = true)
    (deep : env.source.depth ≤ n) :
    (env.source.restAt r.pos = nestedCasts written types ++ rest →
      NameEnds env.source (r.pos.right (nestedCasts written types).length) →
      ReadsCasts env n r types written v (nestedStart types) (nestedCasts written types).length) ∧
    (env.source.restAt r.pos = castChain written types ++ rest →
      NameEnds env.source (r.pos.right (castChain written types).length) →
      (types.length = 1 → ReadsCasts env n r types written v (nestedStart types) (castChain written types).length) ∧
      (types.length ≠ 1 → ∃ after, operand n env r = .fail after ∧ after.pos = r.pos ∧ after.scope = r.scope)) := by
  have enough : 16 * env.source.remaining r.pos + 2 < n := by
    have fewer := env.source.remaining_le_size r.pos
    rw [Source.depth] at deep
    omega
  have nested (here : env.source.restAt r.pos = nestedCasts written types ++ rest)
      (ends : NameEnds env.source (r.pos.right (nestedCasts written types).length)) :
      ReadsCasts env n r types written v (nestedStart types) (nestedCasts written types).length := by
    obtain ⟨e, made, takes⟩ := nested_takes names usual isNamed some casts here ends enough
    obtain ⟨after, ran, kept, there⟩ := takes r rfl rfl
    exact ⟨e, after, made, ran, there, kept⟩
  refine ⟨nested, fun here ends => ⟨fun one => ?_, fun more => ?_⟩⟩
  · obtain ⟨t, rfl⟩ := List.length_eq_one_iff.mp one
    have same : castChain written [t] = nestedCasts written [t] := by simp [castChain, nestedCasts]
    rw [same] at here ends ⊢
    exact nested here ends
  · rcases types with _ | ⟨t, _ | ⟨u, types⟩⟩
    · exact absurd rfl some
    · exact absurd rfl more
    · have first : env.source.restAt r.pos = castText t ++ (castText u ++ (types.flatMap castText ++ written ++ rest)) := by
        simpa [castChain] using here
      have both : t.IsNamed ∧ u.IsNamed := ⟨isNamed t (by simp), isNamed u (by simp)⟩
      have unread := operand_chain_unread both usual first n
      have lasts : ¬ Call.operand.exhaustsAt env n r.pos := fun ran => Nat.not_lt.mpr deep (Call.count_lt_depth ran)
      obtain ⟨after, ran, kept, there⟩ := unread.refuses (expressionsSettle env n).operand lasts r rfl rfl
      exact ⟨after, ran, there, kept⟩

def castsApart : Env where
  source := { lines := #["(int)((byte)a);"], origins := #["apart.cb"] }
  settings := {}

def castsTogether : Env where
  source := { lines := #["(int)(byte)a;"], origins := #["together.cb"] }
  settings := {}

theorem casts_read_only_in_parentheses_narrow :
    ∃ v, twoNumbers.scope.HasVariable "a" v ∧ twoNumbers.scope.IsUsual ∧
      ReadsCasts castsApart 300 twoNumbers [.int, .byte] "a" v 12 14 ∧
      ∃ after, operand 300 castsTogether twoNumbers = .fail after := by
  have usual : twoNumbers.scope.IsUsual := ⟨rfl, by decide +kernel⟩
  have names : twoNumbers.scope.HasVariable "a" ⟨"a", .int, 2, -2⟩ := by
    constructor <;> decide +kernel
  have isNamed : ∀ t ∈ [Ty.int, .byte], t.IsNamed := by decide
  have casts : ([Ty.int, .byte] ++ [Ty.int]).IsChain fun target source => source.canCast target = true := by decide
  have apart : castsApart.source.restAt twoNumbers.pos = nestedCasts "a" [.int, .byte] ++ utf8 ";" := by decide +kernel
  have apartEnds : NameEnds castsApart.source (twoNumbers.pos.right 14) := by
    constructor <;> decide +kernel
  have together : castsTogether.source.restAt twoNumbers.pos = castChain "a" [.int, .byte] ++ utf8 ";" := by decide +kernel
  have togetherEnds : NameEnds castsTogether.source (twoNumbers.pos.right 12) := by
    constructor <;> decide +kernel
  have reads : ReadsCasts castsApart 300 twoNumbers [.int, .byte] "a" ⟨"a", .int, 2, -2⟩ 12 14 :=
    (casts_read_only_in_parentheses usual names isNamed (by simp) casts (by decide)).1 apart apartEnds
  have deep : castsTogether.source.depth ≤ 300 := by decide
  obtain ⟨after, failed, _⟩ :=
    ((casts_read_only_in_parentheses usual names isNamed (by simp) casts deep).2 together togetherEnds).2 (by decide)
  exact ⟨_, names, usual, reads, after, failed⟩

end Rule

def castInParentheses : Source where
  lines := #["void main() \x7b int a; a = (int)((byte)a); \x7d"]
  origins := #[]

def castOfCast : Source where
  lines := #["void main() \x7b int a; a = (int)(byte)a; \x7d"]
  origins := #[]

theorem parse_castOfCast :
    (parse ⟨castInParentheses, {}⟩).program.toOption.isSome = true ∧
      (parse ⟨castOfCast, {}⟩).program.toOption.isSome = false := by
  constructor <;> decide +kernel

end Cb
