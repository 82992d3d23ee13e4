import Cb.Proofs.DeclaredNames
import Cb.Proofs.LineTexts

/-! The texts of trees, which comments echo: every one of them fits on a line. -/

namespace Cb

namespace Bytes

def isOneLine (text : Bytes) : Bool := text.all (· ≠ 10)

@[simp] theorem isOneLine_append (first second : Bytes) :
    (first ++ second).isOneLine = (first.isOneLine && second.isOneLine) := List.all_append ..

theorem isOneLine_of_all {p : UInt8 → Bool} (breaks : p 10 = false) {text : Bytes} (all : ∀ b ∈ text, p b = true) :
    text.isOneLine = true := by
  refine List.all_eq_true.mpr fun b member => ?_
  have holds := all b member
  simp only [decide_eq_true_eq]
  rintro rfl
  rw [breaks] at holds
  cases holds

theorem isOneLine_ofNat (n : Nat) : (ofNat n).isOneLine = true :=
  isOneLine_of_all (by decide) fun _ member => isDecimal_of_mem_ofNat member

theorem isOneLine_ofInt (n : Int) : (ofInt n).isOneLine = true := by
  rw [ofInt]
  split
  · rw [isOneLine_append, isOneLine_ofNat]
    decide
  · exact isOneLine_ofNat _

theorem isOneLine_signed (n : Int) : (signed n).isOneLine = true := by
  rw [signed]
  split
  · exact isOneLine_ofInt n
  · rw [isOneLine_append, isOneLine_ofInt]
    decide

end Bytes

/-! Lower case neither makes nor removes line breaks. -/

namespace Scalar

theorem ne_break {a : UInt8} (above : 0x80 ≤ a.toNat) : 10 ≠ a := by
  rintro rfl
  exact absurd above (by decide)

end Scalar

variable {entry : Declaration} {s t : Stmt} {text : Bytes} {env : Env} {pos : Position} {names : List Bytes}
  {locals : List Declaration} {last : Reader}

theorem eq_break_of_mem_encode (member : (10 : UInt8) ∈ encode code) : code = 10 := by
  have above {n : Nat} (low : 0x80 ≤ n) (high : n < 256) : 10 ≠ n.toUInt8 :=
    Scalar.ne_break (by rw [toNat_toUInt8 high]; exact low)
  have tail (n : Nat) : 10 ≠ (0x80 + n % 64).toUInt8 := above (by omega) (by omega)
  simp only [encode] at member
  split at member
  · have value := congrArg UInt8.toNat (List.mem_singleton.mp member)
    rw [toNat_toUInt8 (by omega)] at value
    exact value.symm
  · exfalso
    split at member
    · simp only [List.mem_cons, List.not_mem_nil, tail, above (n := 0xC0 + code / 64) (by omega) (by omega), or_self] at member
    · split at member
      · revert member
        decide
      · rename_i isScalar
        simp only [Bool.or_eq_true, decide_eq_true_eq, not_or] at isScalar
        split at member
        · simp only [List.mem_cons, List.not_mem_nil, tail, above (n := 0xE0 + code / 4096) (by omega) (by omega),
            or_self] at member
        · simp only [List.mem_cons, List.not_mem_nil, tail, above (n := 0xF0 + code / 262144) (by omega)
            (by omega), or_self] at member

theorem mem_codePoints_break_iff (text : Bytes) : 10 ∈ codePoints text ↔ 10 ∈ text := by
  have each : ∀ unit ∈ scalars text, unit.code = 10 ↔ 10 ∈ unit.bytes := by
    intro unit member
    rcases isUnit_of_mem_scalars text unit member with ⟨_, bytes⟩ | ⟨replaced, byte, above, bytes⟩
    · rw [bytes]
      refine ⟨fun isBreak => ?_, eq_break_of_mem_encode⟩
      rw [isBreak]
      decide
    · rw [bytes, replaced, List.mem_singleton]
      exact iff_of_false (by decide) (Scalar.ne_break above)
  conv => rhs; rw [← flatMap_scalars text]
  rw [codePoints, List.mem_map, List.mem_flatMap]
  exact exists_congr fun unit => and_congr_right (each unit)

theorem lowerCode_eq_break (lowered : lowerCode code = 10) : code = 10 := by
  by_cases ascii : code < 0x80
  · have all : ∀ n < 0x80, lowerCode n = 10 → n = 10 := by decide +kernel
    exact all code ascii lowered
  · rcases lowerCode_cases (Nat.not_lt.mp ascii) with same | ⟨range, member, here, shifted⟩
    · exact same.symm.trans lowered
    · have lowering := List.all_eq_true.mp upperRanges_lowering range member
      have bounds := CaseRange.bounds_of_holds here
      simp only [CaseRange.isLowering, Bool.and_eq_true, decide_eq_true_eq] at lowering
      omega

theorem mem_lower_break_iff (text : Bytes) : 10 ∈ lower text ↔ 10 ∈ text := by
  rw [lower_eq, List.mem_flatMap, ← mem_codePoints_break_iff]
  constructor
  · rintro ⟨code, member, written⟩
    rwa [lowerCode_eq_break (eq_break_of_mem_encode written)] at member
  · intro member
    exact ⟨10, member, by decide +kernel⟩

theorem isOneLine_iff : text.isOneLine = true ↔ 10 ∉ text := by
  rw [Bytes.isOneLine, List.all_eq_true]
  constructor
  · intro all member
    simpa using all 10 member
  · intro absent b member
    simpa using fun same : b = 10 => absent (same ▸ member)

theorem isOneLine_lower (text : Bytes) : (lower text).isOneLine = text.isOneLine := by
  rw [Bool.eq_iff_iff, isOneLine_iff, isOneLine_iff, mem_lower_break_iff]

theorem isOneLine_leadingWord (text : Bytes) : (Reader.leadingWord text).isOneLine = true := by
  cases text with
  | nil => rfl
  | cons first rest =>
    simp only [Reader.leadingWord]
    split
    · exact Bytes.isOneLine_of_all (p := fun b => continuesWord b.toNat) (by decide) (List.all_eq_true.mp List.all_takeWhile)
    · rfl

theorem isOneLine_spelled (text : Bytes) : (lower (Reader.leadingWord text)).isOneLine = true := by
  rw [isOneLine_lower, isOneLine_leadingWord]

theorem Ty.isOneLine_text {t : Ty} (named : t.IsNamed) : t.text.isOneLine = true := by
  have stars : Bytes.isOneLine (List.replicate t.depth 42) = true :=
    Bytes.isOneLine_of_all (p := (· = 42)) (by decide) fun b member => by simpa using List.eq_of_mem_replicate member
  rw [text, Bytes.isOneLine_append, stars, Bool.and_true]
  rcases named with isInt | isByte | isVoid
  · rw [isInt]
    decide
  · rw [isByte]
    decide
  · rw [isVoid]
    decide

theorem Operator.isOneLine_symbol (op : Operator) : op.symbol.isOneLine = true := by
  cases op <;> rfl

theorem Bytes.isOneLine_join (fits : separator.isOneLine = true) (each : ∀ part ∈ parts, part.isOneLine = true) :
    (join separator parts).isOneLine = true := by
  induction parts with
  | nil => rfl
  | cons part rest ih =>
    have first := each part (by simp)
    have others := ih fun other member => each other (by simp [member])
    cases rest with
    | nil => exact first
    | cons next more =>
      rw [join, isOneLine_append, isOneLine_append, first, fits, others]
      · rfl
      · exact nofun

structure Vocabulary.FitsLines (known : Vocabulary) : Prop where
  names : ∀ {name ty offset}, known.names name ty offset → name.isOneLine = true
  callees : ∀ {callee}, known.callees callee → callee.name.isOneLine = true

theorem Expr.texts_eq_map (es : List Expr) : texts es = es.map Expr.text := by
  induction es with
  | nil => rfl
  | cons e rest ih => rw [texts, ih, List.map_cons]

theorem Expr.isOneLine_binary {info : Info} (leftFits : left.text.isOneLine = true)
    (rightFits : right.text.isOneLine = true) : (Expr.binary info op left right).text.isOneLine = true := by
  simp only [text, Bytes.isOneLine_append, leftFits, rightFits, op.isOneLine_symbol]
  decide

theorem Typed.isOneLine_text (typed : Typed known e) (fits : known.FitsLines) :
    e.text.isOneLine = true := by
  have moved {displacement : Int} {info : Info} {address : Expr} (inner : address.text.isOneLine = true) :
      (Expr.deref info address displacement).text.isOneLine = true := by
    rw [Expr.text]
    split
    · rw [Bytes.isOneLine_append, inner]
      decide
    · simp only [Bytes.isOneLine_append, Bytes.isOneLine_signed, inner]
      decide
  induction typed with
  | literal =>
    rw [Expr.text]
    split
    · decide
    · exact Bytes.isOneLine_ofInt _
  | var found => exact fits.names found
  | deref _ _ _ _ _ inner => exact moved inner
  | @step _ _ down _ _ _ inner =>
    rw [Expr.text, Bytes.isOneLine_append, inner]
    cases down <;> decide
  | addressOfVar found =>
    rw [Expr.text, Bytes.isOneLine_append, Expr.text, fits.names found]
    decide
  | addressOfDeref _ _ _ _ _ _ inner =>
    rw [Expr.text, Bytes.isOneLine_append, moved inner]
    decide
  | cast _ named _ _ _ inner =>
    simp only [Expr.text, Bytes.isOneLine_append, Ty.isOneLine_text named, inner]
    decide
  | @call _ _ given found _ _ inner =>
    have arguments : ∀ part ∈ Expr.texts given, part.isOneLine = true := by
      rw [Expr.texts_eq_map]
      exact List.forall_mem_map.mpr inner
    have listed : (Bytes.join ", " (Expr.texts given)).isOneLine = true := Bytes.isOneLine_join (by decide) arguments
    simp only [Expr.text, Bytes.isOneLine_append, fits.callees found, listed]
    decide
  | assign _ _ _ _ left right | arithmetic _ _ _ _ _ _ left right | pointer _ _ _ _ _ _ left right
  | shift _ _ _ _ _ _ _ left right | comparison _ _ _ _ _ _ _ left right => exact Expr.isOneLine_binary left right

/-! Where the names of a body come from. -/

open Node

theorem Node.Contains.of_expr (inside : (expr e).Contains node) : ∃ part, node = .expr part := by
  generalize isRoot : expr e = root at inside
  induction inside generalizing e with
  | self => exact ⟨e, isRoot.symm⟩
  | part isChild _ ih =>
    subst isRoot
    obtain ⟨child, _, rfl⟩ := List.mem_map.mp isChild
    exact ih rfl

theorem Node.Contains.declaration (inside : (stmt s).Contains (.stmt (.declare pos entry))) :
    s = .declare pos entry ∨
      ∃ t, stmt t ∈ (stmt s).children ∧ (stmt t).Contains (.stmt (.declare pos entry)) := by
  cases inside with
  | self => exact .inl rfl
  | @part _ child _ isChild inside =>
    cases child with
    | expr e =>
      obtain ⟨_, impossible⟩ := inside.of_expr
      cases impossible
    | stmt t => exact .inr ⟨t, isChild, inside⟩

theorem Node.mem_ofStmt (member : stmt t ∈ ofStmt s) : t = s := by
  cases s with
  | empty => cases member
  | bare => cases List.mem_singleton.mp member
  | _ =>
    cases List.mem_singleton.mp member
    rfl

theorem Node.stmt_notMem_ofExpr? (t : Stmt) (e : Option Expr) : stmt t ∉ ofExpr? e := by
  intro member
  obtain ⟨_, _, impossible⟩ := mem_ofExpr? member
  cases impossible

theorem Written.isOneLine_declared {names : List Declaration → Names} (written : Written env names locals body p q)
    (member : s ∈ body) (inside : (stmt s).Contains (.stmt (.declare pos entry))) :
    entry.name.isOneLine = true := by
  induction written generalizing s with
  | text => cases member
  | append _ _ ihFirst ihRest =>
    rcases List.mem_append.mp member with isFirst | isRest
    · exact ihFirst isFirst inside
    · exact ihRest isRest inside
  | declare _ _ new =>
    cases List.mem_singleton.mp member
    rcases inside.declaration with same | ⟨t, isChild, _⟩
    · cases same
      rw [← new]
      exact isOneLine_spelled _
    · exact absurd isChild (stmt_notMem_ofExpr? t _)
  | evaluate | breakLoop | continueLoop | ret | assembly =>
    cases List.mem_singleton.mp member
    rcases inside.declaration with same | ⟨t, isChild, _⟩
    · cases same
    · simp [children, stmt_notMem_ofExpr?] at isChild
  | block _ _ ih =>
    cases List.mem_singleton.mp member
    rcases inside.declaration with same | ⟨t, isChild, within⟩
    · cases same
    · obtain ⟨u, there, isPart⟩ := List.mem_flatMap.mp isChild
      cases mem_ofStmt isPart
      exact ih there within
  | branch _ _ _ ih | whileLoop _ _ _ ih =>
    cases List.mem_singleton.mp member
    rcases inside.declaration with same | ⟨t, isChild, within⟩
    · cases same
    · simp only [children, ofStmt?, Option.elim, List.append_nil, List.mem_append, stmt_notMem_ofExpr?,
        false_or] at isChild
      cases mem_ofStmt isChild
      exact ih (by simp) within
  | branchElse _ _ _ _ _ ihYes ihNo =>
    cases List.mem_singleton.mp member
    rcases inside.declaration with same | ⟨t, isChild, within⟩
    · cases same
    · simp only [children, ofStmt?, Option.elim, List.mem_append, stmt_notMem_ofExpr?, false_or] at isChild
      rcases isChild with isYes | isNo
      · cases mem_ofStmt isYes
        exact ihYes (by simp) within
      · cases mem_ofStmt isNo
        exact ihNo (by simp) within
  | @forLoop _ _ _ _ _ _ init body _ _ _ _ _ _ _ ihFirst ihBody =>
    cases List.mem_singleton.mp member
    rcases inside.declaration with same | ⟨t, isChild, within⟩
    · cases same
    · simp only [children, List.mem_append, stmt_notMem_ofExpr?, or_false] at isChild
      rcases isChild with isFirst | isBody
      · cases init with
        | none => cases isFirst
        | some clause =>
          cases mem_ofStmt isFirst
          exact ihFirst (by simp) within
      · cases mem_ofStmt isBody
        exact ihBody (by simp) within

def Function.FitsLine (f : Function) : Prop :=
  f.name.isOneLine = true ∧ ∀ param ∈ f.params, param.name.isOneLine = true

namespace Rule

variable {env : Env}

theorem function_fitsLine (settled : Settled r.scope) (fits : ∀ f ∈ r.scope.functions, f.FitsLine)
    (ran : function n env r = .ok () after) :
    ∀ f ∈ after.scope.functions, f.FitsLine := by
  obtain ⟨_, name, _, heading, _, heads⟩ := function_registers settled ran
  intro f member
  rcases heads f member with ⟨isName, spelledParams⟩ | ⟨known, old, sameName, sameParams⟩
  · obtain ⟨text, spelled⟩ := heading_spelled heading
    refine ⟨by rw [isName, spelled]; exact isOneLine_spelled text, fun param isParam => ?_⟩
    obtain ⟨text, spelled⟩ := spelledParams param isParam
    rw [spelled]
    exact isOneLine_spelled text
  · rw [Function.FitsLine, sameName, sameParams]
    exact fits known old

end Rule

theorem ReadThrough.fitsLine (through : ReadThrough env program names last) :
    ∀ f ∈ program.functions, f.FitsLine := by
  rw [through.functions]
  exact (Env.reading_keeps (p := fun table => ∀ f ∈ table, f.FitsLine) nofun Rule.function_fitsLine through.reading).2

theorem Node.Contains.mem_ofStmt (inside : (stmt t).Contains (.stmt (.declare pos entry))) :
    stmt t ∈ ofStmt t := by
  cases t with
  | empty =>
    rcases inside.declaration with same | ⟨_, isChild, _⟩
    · cases same
    · cases isChild
  | bare e =>
    rcases inside.declaration with same | ⟨_, isChild, _⟩
    · cases same
    · simp [children] at isChild
  | _ => simp [ofStmt]

theorem Stmt.eq_declare_of_declares (member : entry ∈ s.declares) : ∃ pos, s = .declare pos entry := by
  cases s with
  | declare pos other =>
    cases List.mem_singleton.mp member
    exact ⟨pos, rfl⟩
  | _ => cases member

theorem Stmt.mem_children_of_rows (isRow : row ∈ s.rows) (there : t ∈ row) (isNode : stmt t ∈ ofStmt t) :
    stmt t ∈ (stmt s).children := by
  cases s with
  | block _ body _ =>
    cases List.mem_singleton.mp isRow
    exact List.mem_flatMap.mpr ⟨t, there, isNode⟩
  | branch _ _ yes no =>
    rcases List.mem_cons.mp isRow with rfl | isNo
    · cases List.mem_singleton.mp there
      simp [children, isNode]
    · cases no with
      | none => cases isNo
      | some other =>
        cases List.mem_singleton.mp isNo
        cases List.mem_singleton.mp there
        simp [children, ofStmt?, isNode]
  | whileLoop _ _ body =>
    cases List.mem_singleton.mp isRow
    cases List.mem_singleton.mp there
    simp [children, isNode]
  | forLoop _ init _ _ _ _ =>
    cases List.mem_singleton.mp isRow
    cases init with
    | none => cases there
    | some clause =>
      cases List.mem_singleton.mp there
      simp [children, ofStmt?, isNode]
  | _ => cases isRow

theorem Stands.declared (stands : Stands locals body nested node) (member : entry ∈ nested) :
    entry ∈ locals ∨ ∃ s ∈ body, ∃ pos, (stmt s).Contains (.stmt (.declare pos entry)) := by
  -- what the first clause of a loop declares
  have clause {pos : Position} {init : Option Stmt} {condition post : Option Expr} {body : Stmt} {cleanup : Int}
      (isFirst : entry ∈ Stmt.declared init.toList) :
      ∃ place, (stmt (.forLoop pos init condition post body cleanup)).Contains (.stmt (.declare place entry)) := by
    cases init with
    | none => cases isFirst
    | some first =>
      obtain ⟨place, rfl⟩ := Stmt.eq_declare_of_declares (s := first) (by simpa [Stmt.declared] using isFirst)
      exact ⟨place, .part (by simp [children, ofStmt?, ofStmt]) (.self _)⟩
  induction stands with
  | here | tree => exact .inl member
  | later _ ih =>
    rcases ih member with isKnown | ⟨t, later, inside⟩
    · rcases List.mem_append.mp isKnown with isNew | isOld
      · obtain ⟨pos, rfl⟩ := Stmt.eq_declare_of_declares isNew
        exact .inr ⟨_, List.mem_cons_self, pos, .self _⟩
      · exact .inl isOld
    · exact .inr ⟨t, by simp [later], inside⟩
  | row isRow _ ih =>
    rcases ih member with isKnown | ⟨t, there, pos, inside⟩
    · exact .inl isKnown
    · exact .inr ⟨_, List.mem_cons_self, pos, .part (Stmt.mem_children_of_rows isRow there inside.mem_ofStmt) inside⟩
  | loopTree =>
    rcases List.mem_append.mp member with isFirst | isOld
    · exact .inr ⟨_, List.mem_cons_self, clause isFirst⟩
    · exact .inl isOld
  | loopBody _ ih =>
    rcases ih member with isKnown | ⟨t, there, pos, inside⟩
    · rcases List.mem_append.mp isKnown with isFirst | isOld
      · exact .inr ⟨_, List.mem_cons_self, clause isFirst⟩
      · exact .inl isOld
    · cases List.mem_singleton.mp there
      exact .inr ⟨_, List.mem_cons_self, pos, .part (by simp [children, inside.mem_ofStmt]) inside⟩

/-! Texts of statements. -/

theorem Declaration.isOneLine_text (named : entry.ty.IsNamed) (name : entry.name.isOneLine = true)
    (initial : ∀ e ∈ entry.init, e.text.isOneLine = true) : entry.text.isOneLine = true := by
  have type := Ty.isOneLine_text named
  have element : entry.ty.deref.text.isOneLine = true := Ty.isOneLine_text (t := entry.ty.deref) named
  rw [text]
  split
  · simp only [Bytes.isOneLine_append, element, name, Bytes.isOneLine_ofInt]
    decide
  · rename_i first _ given
    simp only [Bytes.isOneLine_append, type, name, initial first given]
    decide
  · simp only [Bytes.isOneLine_append, type, name]
    decide

theorem Declares.initial (new : Declares frame locals entry) :
    ∀ e ∈ entry.init, Typed (frame.vocabulary locals) e := by
  cases new with
  | scalar _ _ initial => exact fun e isInit => (initial e isInit).1.typed
  | array => exact nofun

theorem Bytes.isOneLine_of_subset (subset : part ⊆ text) (fits : text.isOneLine = true) :
    part.isOneLine = true :=
  List.all_eq_true.mpr fun b member => List.all_eq_true.mp fits b (subset member)

theorem Bytes.isOneLine_dropFront (fits : text.isOneLine = true) :
    (dropFront front text).isOneLine = true := by
  rw [dropFront, after?]
  split
  · exact isOneLine_of_subset (List.drop_subset _ _) fits
  · exact fits

theorem Bytes.isOneLine_dropBack (fits : text.isOneLine = true) :
    (dropBack back text).isOneLine = true := by
  rw [dropBack, before?]
  split
  · exact isOneLine_of_subset (List.take_subset _ _) fits
  · exact fits

def Node.FitsLine : Node → Prop
  | .expr e => e.text.isOneLine = true
  | .stmt (.declare _ entry) => entry.text.isOneLine = true
  | .stmt _ => True

def Stmt.FitsLines (s : Stmt) : Prop := ∀ part ∈ ofStmt s, ∀ node, part.Contains node → node.FitsLine

namespace Stmt.FitsLines

variable {s t : Stmt}

theorem child (fits : s.FitsLines) (isNode : .stmt s ∈ ofStmt s)
    (isChild : ∀ part ∈ ofStmt t, part ∈ (stmt s).children) : t.FitsLines :=
  fun part isPart node inside => fits _ isNode node (.part (isChild part isPart) inside)

theorem tree (fits : s.FitsLines) (isNode : .stmt s ∈ ofStmt s) (isChild : .expr e ∈ (stmt s).children) :
    e.text.isOneLine = true :=
  fits _ isNode (.expr e) (.part isChild (.self _))

theorem optional (fits : s.FitsLines) (isNode : .stmt s ∈ ofStmt s)
    (isChild : ∀ part ∈ ofExpr? e, part ∈ (stmt s).children) : (optionalText e).isOneLine = true := by
  cases e with
  | none => rfl
  | some x => exact fits.tree isNode (isChild (.expr x) (by simp [ofExpr?]))

end Stmt.FitsLines

theorem Stmt.isOneLine_text {s : Stmt} (fits : s.FitsLines) : s.text.isOneLine = true := by
  match s with
  | .empty | .breakLoop _ _ | .continueLoop _ _ | .assembly _ _ | .block _ _ _ => rfl
  | .branch _ condition _ _ | .whileLoop _ condition _ =>
    have test : (optionalText condition).isOneLine = true :=
      fits.optional (by simp [ofStmt]) (by simp +contextual [children])
    simp only [text, Bytes.isOneLine_append, test]
    decide
  | .forLoop _ init condition post _ _ =>
    have test : (optionalText condition).isOneLine = true :=
      fits.optional (by simp [ofStmt]) (by simp +contextual [children])
    have next : (optionalText post).isOneLine = true :=
      fits.optional (by simp [ofStmt]) (by simp +contextual [children])
    cases init with
    | none =>
      simp only [text, Bytes.isOneLine_append, test, next]
      decide
    | some clause =>
      have first : clause.text.isOneLine = true :=
        isOneLine_text (fits.child (by simp [ofStmt]) (by simp +contextual [children, ofStmt?]))
      simp only [text, Bytes.isOneLine_append, Bytes.isOneLine_dropFront (Bytes.isOneLine_dropBack first), test, next]
      decide
  | .ret _ none _ => rfl
  | .ret _ (some e) _ =>
    have value : e.text.isOneLine = true := fits.tree (by simp [ofStmt]) (by simp [children, ofExpr?])
    simp only [text, Bytes.isOneLine_append, value]
    decide
  | .declare pos entry => exact fits _ (by simp [ofStmt]) (.stmt (.declare pos entry)) (.self _)
  | .evaluate _ e => exact fits.tree (by simp [ofStmt]) (by simp [children])
  | .bare e => exact fits (.expr e) (by simp [ofStmt]) (.expr e) (.self _)
  | .stray _ inner => exact isOneLine_text (s := inner) (fits.child (by simp [ofStmt]) (by simp [children]))
termination_by structural s

theorem ReadThrough.fitsLines {program : Program} (through : ReadThrough env program names last)
    (member : f ∈ program.functions) (implemented : f.body = some body) : body.FitsLines := by
  obtain ⟨_, frame, n, inside, outside, params, returns, known, opened, read⟩ := through.bodiesRead f member body implemented
  have place : ({ returns := f.returns } : Rule.Place).Matches frame none frame.scope := ⟨returns.symm, trivial⟩
  obtain ⟨_, accepts⟩ := Rule.block_accepts returns.symm opened read
  have writes := (Rule.statementsWrite env (Frame.shows_names params known) n).block frame.scope_represents place
  have written := writes inside.pos inside outside _ opened rfl read
  have declared {pos : Position} {entry : Declaration} (within : (stmt body).Contains (.stmt (.declare pos entry))) :
      entry.name.isOneLine = true := written.isOneLine_declared (by simp) within
  have vocabulary {inner : List Declaration} {node : Node} (stands : Stands [] [body] inner node) (locals : Locals frame inner) :
      (frame.vocabulary inner).FitsLines := by
    constructor
    · rintro name ty offset ⟨_, v, found, _⟩
      rw [← isOneLine_lower]
      rcases Frame.name_of_findVariable? params locals found with ⟨param, isParam, same⟩ | ⟨entry, isLocal, same⟩ | same | same
      · rw [← same]
        exact (through.fitsLine f member).2 param isParam
      · rw [← same]
        rcases stands.declared isLocal with isOuter | ⟨s, isBody, pos, within⟩
        · cases isOuter
        · cases List.mem_singleton.mp isBody
          exact declared within
      · rw [same]
        decide
      · rw [same]
        decide
    · rintro callee ⟨g, isKnown, rfl⟩
      obtain ⟨h, isListed, same⟩ := List.mem_map.mp (known (List.mem_map_of_mem isKnown))
      exact same ▸ (through.fitsLine h isListed).1
  intro part isPart node within
  cases accepts.eq_of_mem_ofStmt (by simp) isPart
  obtain ⟨inner, stands⟩ := accepts.stands (by simp) within
  obtain ⟨locals, admits⟩ := accepts.admits .nil stands
  have fits := vocabulary stands locals
  cases node with
  | expr e => exact Typed.isOneLine_text admits fits
  | stmt s =>
    cases s with
    | declare pos entry =>
      have new : Declares frame inner entry := admits
      exact Declaration.isOneLine_text new.isValue.1 (declared within) fun e isInit => (new.initial e isInit).isOneLine_text fits
    | _ => trivial

end Cb
