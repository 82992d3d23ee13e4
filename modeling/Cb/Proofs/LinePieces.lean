import Cb.Preprocess.Replace

/-! The pieces of a line: literals, words and single bytes. Replacement puts the value of a macro for a word and copies
every other piece; a comment begins at the first two slashes outside the literals. The rules for pieces do not
mention the state that the two loops over a line carry. -/

namespace Cb.Preprocess

inductive Literal (mark : UInt8) : Bytes → Bytes → Prop
  | closed {rest : Bytes} : Literal mark [mark] rest
  | ended : Literal mark [] []
  | endedBehindBackslash : Literal mark [backslash] []
  | plain {b : UInt8} {body rest : Bytes} (unescaping : b ≠ backslash) (unmarked : b ≠ mark)
      (more : Literal mark body rest) : Literal mark (b :: body) rest
  | escaped {b : UInt8} {body rest : Bytes} (more : Literal mark body rest) :
      Literal mark (backslash :: b :: body) rest

inductive Piece where
  | literal (text : Bytes)
  | word (text : Bytes)
  | other (b : UInt8)

namespace Piece

def text : Piece → Bytes
  | .literal text | .word text => text
  | .other b => [b]

def isLiteral : Piece → Bool
  | .literal _ => true
  | _ => false

def startsWithDigit (word : Bytes) : Bool := word.head?.any fun b => byte '0' ≤ b && b ≤ byte '9'

def replaced (macros : Macros) : Piece → Bytes
  | .word text => if startsWithDigit text then text else (macros.find? text).getD text
  | piece => piece.text

end Piece

inductive Splits : Bytes → List Piece → Prop
  | nil : Splits [] []
  | literal {mark : UInt8} {body rest : Bytes} {pieces : List Piece} (quote : isQuote mark = true)
      (literal : Literal mark body rest) (others : Splits rest pieces) :
      Splits (mark :: (body ++ rest)) (.literal (mark :: body) :: pieces)
  | word {first : UInt8} {text rest : Bytes} {pieces : List Piece} (run : ∀ b ∈ first :: text, continuesName b = true)
      (maximal : ∀ b ∈ rest.head?, continuesName b = false) (others : Splits rest pieces) :
      Splits (first :: (text ++ rest)) (.word (first :: text) :: pieces)
  | other {b : UInt8} {rest : Bytes} {pieces : List Piece} (noQuote : isQuote b = false)
      (noName : continuesName b = false) (others : Splits rest pieces) : Splits (b :: rest) (.other b :: pieces)

section Bytes

variable {b : UInt8}

theorem isQuote_iff : isQuote b = true ↔ b = byte '\'' ∨ b = byte '"' := by simp [isQuote]

theorem marks_of_isQuote (quote : isQuote b = true) : b ≠ byte '/' ∧ b ≠ backslash ∧ continuesName b = false := by
  rcases isQuote_iff.mp quote with rfl | rfl <;> decide

theorem not_isQuote_of_continuesName (name : continuesName b = true) : isQuote b = false := by
  cases quote : isQuote b with
  | false => rfl
  | true =>
    rw [(marks_of_isQuote quote).2.2] at name
    contradiction

theorem ne_slash_of_continuesName (name : continuesName b = true) : b ≠ byte '/' := by
  rintro rfl
  exact absurd name (by decide)

theorem startsName_eq_not_digit (name : continuesName b = true) :
    startsName b = !(decide (byte '0' ≤ b) && decide (b ≤ byte '9')) := by
  have zero : (byte '0').toNat = 48 := by decide
  have nine : (byte '9').toNat = 57 := by decide
  have lowA : (byte 'a').toNat = 97 := by decide
  have upA : (byte 'A').toNat = 65 := by decide
  have bar : (byte '_').toNat = 95 := by decide
  rw [continuesName] at name
  rw [Bool.eq_iff_iff]
  simp only [startsName, Bool.or_eq_true, Bool.and_eq_true, decide_eq_true_eq, Bool.not_eq_true',
    Bool.and_eq_false_iff, decide_eq_false_iff_not, UInt8.le_iff_toNat_le, ← UInt8.toNat_inj,
    zero, nine, lowA, upA, bar] at name ⊢
  omega

end Bytes

variable {mark : UInt8} {line body rest text : Bytes} {pieces : List Piece} {macros : Macros}

section Splitting

theorem literal_exists (mark : UInt8) : ∀ text : Bytes, ∃ body rest, Literal mark body rest ∧ text = body ++ rest
  | [] => ⟨[], [], .ended, rfl⟩
  | b :: text => by
    by_cases marked : b = mark
    · subst marked
      exact ⟨[b], text, .closed, rfl⟩
    · by_cases escaping : b = backslash
      · subst escaping
        cases text with
        | nil => exact ⟨[backslash], [], .endedBehindBackslash, rfl⟩
        | cons c text =>
          obtain ⟨body, rest, literal, rfl⟩ := literal_exists mark text
          exact ⟨backslash :: c :: body, rest, .escaped literal, rfl⟩
      · obtain ⟨body, rest, literal, rfl⟩ := literal_exists mark text
        exact ⟨b :: body, rest, .plain escaping marked literal, rfl⟩

theorem splits_exists (line : Bytes) : ∃ pieces, Splits line pieces := by
  induction count : line.length using Nat.strongRecOn generalizing line with
  | ind count ih =>
    subst count
    cases line with
    | nil => exact ⟨[], .nil⟩
    | cons b text =>
      by_cases name : continuesName b = true
      · have shorter : (text.dropWhile continuesName).length < (b :: text).length := by
          have := (List.dropWhile_sublist continuesName (l := text)).length_le
          rw [List.length_cons]
          omega
        obtain ⟨pieces, others⟩ := ih _ shorter _ rfl
        refine ⟨.word (b :: text.takeWhile continuesName) :: pieces, ?_⟩
        have run : ∀ c ∈ b :: text.takeWhile continuesName, continuesName c = true := by
          rw [List.forall_mem_cons]
          exact ⟨name, List.all_eq_true.mp List.all_takeWhile⟩
        have maximal : ∀ c ∈ (text.dropWhile continuesName).head?, continuesName c = false := by
          intro c first
          have stops := List.head?_dropWhile_not continuesName text
          rwa [Option.mem_def.mp first] at stops
        have split := Splits.word run maximal others
        rwa [List.takeWhile_append_dropWhile] at split
      · rw [Bool.not_eq_true] at name
        by_cases quote : isQuote b = true
        · obtain ⟨body, rest, literal, rfl⟩ := literal_exists b text
          have shorter : rest.length < (b :: (body ++ rest)).length := by
            rw [List.length_cons, List.length_append]
            omega
          obtain ⟨pieces, others⟩ := ih _ shorter _ rfl
          exact ⟨_, .literal quote literal others⟩
        · rw [Bool.not_eq_true] at quote
          obtain ⟨pieces, others⟩ := ih text.length (by simp) text rfl
          exact ⟨_, .other quote name others⟩

theorem Splits.flatMap_text (split : Splits line pieces) : pieces.flatMap Piece.text = line := by
  induction split with
  | nil => rfl
  | literal _ _ _ ih => simp [Piece.text, ih]
  | word _ _ _ ih => simp [Piece.text, ih]
  | other _ _ _ ih => simp [Piece.text, ih]

end Splitting

section Replacing

theorem replaceIn_quoted (unescaping : b ≠ backslash) (rest : Bytes) :
    replaceIn macros (some mark) [] (b :: rest) =
      b :: replaceIn macros (if b = mark then none else some mark) [] rest := by
  rw [replaceIn.eq_def]
  simp only [unescaping, ↓reduceIte]

theorem replaceIn_literal (quote : isQuote mark = true) (literal : Literal mark body rest) :
    replaceIn macros (some mark) [] (body ++ rest) = body ++ replaceIn macros none [] rest := by
  induction literal with
  | closed => simp [replaceIn_quoted (marks_of_isQuote quote).2.1]
  | ended => rfl
  | endedBehindBackslash => rfl
  | plain unescaping unmarked more ih => simp [replaceIn_quoted unescaping, unmarked, ih]
  | escaped more ih => simp [replaceIn, ih]

theorem replaceIn_run (run : ∀ b ∈ text, continuesName b = true) (word : Bytes) :
    replaceIn macros none word (text ++ rest) = replaceIn macros none (word ++ text) rest := by
  induction text generalizing word with
  | nil => simp
  | cons b text ih =>
    rw [List.forall_mem_cons] at run
    simp [replaceIn, run.1, ih run.2]

theorem replaceIn_behind_word (maximal : ∀ b ∈ rest.head?, continuesName b = false) (word : Bytes) :
    replaceIn macros none word rest = expand macros word ++ replaceIn macros none [] rest := by
  cases rest with
  | nil => simp [replaceIn, expand]
  | cons b rest => simp [replaceIn, maximal b (by simp), expand]

theorem expand_eq_replaced (name : continuesName first = true) (text : Bytes) :
    expand macros (first :: text) = (Piece.word (first :: text)).replaced macros := by
  simp only [expand, Piece.replaced, Piece.startsWithDigit, startsName_eq_not_digit name, List.head?_cons, Option.any_some]
  by_cases digit : (decide (byte '0' ≤ first) && decide (first ≤ byte '9')) = true <;> simp [digit]

theorem Splits.replace_eq (split : Splits line pieces) : replace macros line = pieces.flatMap (Piece.replaced macros) := by
  simp only [replace]
  induction split with
  | nil => rfl
  | @literal mark body rest _ quote literal _ ih =>
    have copied : replaceIn macros (some mark) [] (body ++ rest) = body ++ replaceIn macros none [] rest :=
      replaceIn_literal quote literal
    simp [replaceIn, (marks_of_isQuote quote).2.2, quote, expand, copied, ih, Piece.replaced, Piece.text]
  | @word first text rest _ run maximal _ ih =>
    rw [← List.cons_append, replaceIn_run run, replaceIn_behind_word maximal, List.nil_append,
      expand_eq_replaced (run first (by simp)), ih, List.flatMap_cons]
  | other noQuote noName _ ih => simp [replaceIn, noName, noQuote, expand, ih, Piece.replaced, Piece.text]

theorem Splits.replace_of_absent (split : Splits line pieces)
    (absent : ∀ text, .word text ∈ pieces → macros.find? text = none) : replace macros line = line := by
  have copied : pieces.flatMap (Piece.replaced macros) = pieces.flatMap Piece.text := by
    rw [List.flatMap_def, List.flatMap_def]
    congr 1
    apply List.map_congr_left
    intro piece member
    cases piece with
    | word text => simp [Piece.replaced, Piece.text, absent text member]
    | literal text => rfl
    | other b => rfl
  rw [split.replace_eq, copied, split.flatMap_text]

end Replacing

section Cutting

variable {piece : Piece} {cut : Bytes} {n : Nat}

def Outside : List Piece → Nat → Prop
  | [], _ => False
  | piece :: others, n =>
    if n < piece.text.length then piece.isLiteral = false else Outside others (n - piece.text.length)

def CommentAt (text : Bytes) (pieces : List Piece) (n : Nat) : Prop :=
  text[n]? = some (byte '/') ∧ text[n + 1]? = some (byte '/') ∧ Outside pieces n

def FirstComment (line : Bytes) (pieces : List Piece) (n : Nat) : Prop :=
  CommentAt line pieces n ∧ ∀ m < n, ¬CommentAt line pieces m

theorem outside_shift : Outside (piece :: pieces) (piece.text.length + n) ↔ Outside pieces n := by
  rw [Outside, if_neg (by omega), Nat.add_sub_cancel_left]

theorem outside_first (low : n < piece.text.length) : Outside (piece :: pieces) n ↔ piece.isLiteral = false := by
  simp [Outside, low]

theorem commentAt_shift :
    CommentAt (piece.text ++ rest) (piece :: pieces) (piece.text.length + n) ↔ CommentAt rest pieces n := by
  have here : (piece.text ++ rest)[piece.text.length + n]? = rest[n]? := by
    rw [List.getElem?_append_right (by omega)]
    congr 1
    omega
  have next : (piece.text ++ rest)[piece.text.length + n + 1]? = rest[n + 1]? := by
    rw [List.getElem?_append_right (by omega)]
    congr 1
    omega
  rw [CommentAt, CommentAt, here, next, outside_shift]

def Cuts (line : Bytes) (pieces : List Piece) (cut : Bytes) : Prop :=
  (∃ n, FirstComment line pieces n ∧ cut = line.take n) ∨ (∀ n, ¬CommentAt line pieces n) ∧ cut = line

theorem Cuts.behind (piece : Piece)
    (silent : ∀ n < piece.text.length, ¬CommentAt (piece.text ++ rest) (piece :: pieces) n)
    (cuts : Cuts rest pieces cut) : Cuts (piece.text ++ rest) (piece :: pieces) (piece.text ++ cut) := by
  have split (m : Nat) : m < piece.text.length ∨ ∃ k, m = piece.text.length + k := by
    by_cases inside : m < piece.text.length
    · exact .inl inside
    · exact .inr ⟨m - piece.text.length, by omega⟩
  rcases cuts with ⟨n, ⟨found, earlier⟩, rfl⟩ | ⟨none, rfl⟩
  · left
    refine ⟨piece.text.length + n, ⟨commentAt_shift.mpr found, ?_⟩, (List.take_length_add_append n).symm⟩
    intro m below
    rcases split m with inside | ⟨k, rfl⟩
    · exact silent m inside
    · rw [commentAt_shift]
      exact earlier k (by omega)
  · right
    refine ⟨?_, rfl⟩
    intro m
    rcases split m with inside | ⟨k, rfl⟩
    · exact silent m inside
    · rw [commentAt_shift]
      exact none k

theorem cutCommentIn_quoted (unescaping : b ≠ backslash) (rest : Bytes) :
    cutCommentIn (some mark) (b :: rest) = b :: cutCommentIn (if b = mark then none else some mark) rest := by
  rw [cutCommentIn.eq_def]
  simp only [unescaping, ↓reduceIte]

theorem cutCommentIn_literal (quote : isQuote mark = true) (literal : Literal mark body rest) :
    cutCommentIn (some mark) (body ++ rest) = body ++ cutCommentIn none rest := by
  induction literal with
  | closed => simp [cutCommentIn_quoted (marks_of_isQuote quote).2.1]
  | ended => rfl
  | endedBehindBackslash => rfl
  | plain unescaping unmarked more ih => simp [cutCommentIn_quoted unescaping, unmarked, ih]
  | escaped more ih => simp [cutCommentIn, ih]

theorem cutCommentIn_run (run : ∀ b ∈ text, continuesName b = true) :
    cutCommentIn none (text ++ rest) = text ++ cutCommentIn none rest := by
  induction text with
  | nil => rfl
  | cons b text ih =>
    rw [List.forall_mem_cons] at run
    simp [cutCommentIn, ne_slash_of_continuesName run.1, not_isQuote_of_continuesName run.1, ih run.2]

theorem Splits.cuts (split : Splits line pieces) : Cuts line pieces (cutComment line) := by
  simp only [cutComment]
  induction split with
  | nil =>
    right
    refine ⟨?_, rfl⟩
    rintro n ⟨absent, -, -⟩
    simp at absent
  | @literal mark body rest pieces quote literal _ ih =>
    have kept : cutCommentIn none (mark :: (body ++ rest)) = mark :: body ++ cutCommentIn none rest := by
      simp [cutCommentIn, (marks_of_isQuote quote).1, quote, cutCommentIn_literal quote literal]
    rw [kept]
    refine Cuts.behind (.literal (mark :: body)) ?_ ih
    rintro n inside ⟨-, -, outside⟩
    rw [outside_first inside] at outside
    contradiction
  | @word first text rest pieces run maximal _ ih =>
    rw [← List.cons_append, cutCommentIn_run run]
    refine Cuts.behind (.word (first :: text)) ?_ ih
    rintro n inside ⟨slash, -, -⟩
    rw [List.getElem?_append_left inside] at slash
    exact ne_slash_of_continuesName (run _ (List.mem_of_getElem? slash)) rfl
  | @other b rest pieces noQuote noName _ ih =>
    by_cases begins : b = byte '/' ∧ rest.head? = some (byte '/')
    · left
      obtain ⟨rfl, next⟩ := begins
      refine ⟨0, ⟨⟨rfl, ?_, ?_⟩, ?_⟩, ?_⟩
      · simpa [List.head?_eq_getElem?] using next
      · exact (outside_first (by simp [Piece.text])).mpr rfl
      · omega
      · simp [cutCommentIn, next]
    · have kept : cutCommentIn none (b :: rest) = b :: cutCommentIn none rest := by
        rw [cutCommentIn.eq_def]
        simp [begins, noQuote]
      rw [kept]
      refine Cuts.behind (.other b) ?_ ih
      rintro n inside ⟨slash, next, -⟩
      have first : n = 0 := by
        simp only [Piece.text, List.length_singleton] at inside
        omega
      subst first
      exact begins ⟨by simpa [Piece.text] using slash, by simpa [Piece.text, List.head?_eq_getElem?] using next⟩

end Cutting

/-- Replacement and the removal of comments work piece by piece. -/
theorem replace_and_cut_by_pieces (macros : Macros) (line : Bytes) :
    (∃ pieces, Splits line pieces) ∧ ∀ pieces, Splits line pieces →
      replace macros line = pieces.flatMap (Piece.replaced macros) ∧
      (macros = [] ∨ (∀ text, .word text ∈ pieces → macros.find? text = none) → replace macros line = line) ∧
      Cuts line pieces (cutComment line) := by
  refine ⟨splits_exists line, fun pieces split => ⟨split.replace_eq, ?_, split.cuts⟩⟩
  rintro (rfl | absent)
  · exact split.replace_of_absent fun _ _ => rfl
  · exact split.replace_of_absent absent

end Cb.Preprocess
