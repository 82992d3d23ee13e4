import Cb.Json.Reader
import Cb.Proofs.LowerCase
import Cb.Proofs.Texts
import Mathlib.Data.List.Forall2

/-! What is written as JSON is read back, with every text repaired: bytes that are part of no character come back as
U+FFFD, and a text of characters comes back as it was. -/

namespace Cb

namespace Json

theorem repaired_eq (text : Bytes) : repaired text = (codePoints text).flatMap encode := by
  rw [repaired, codePoints, List.flatMap_map]

theorem repaired_encode {codes : List Nat} (valid : ∀ code ∈ codes, IsScalar code) :
    repaired (codes.flatMap encode) = codes.flatMap encode := by
  rw [repaired_eq, codePoints_encode valid]

theorem repaired_repaired (text : Bytes) : repaired (repaired text) = repaired text := by
  rw [repaired_eq text]
  exact repaired_encode (isScalar_of_codePoints text)

theorem repaired_eq_self_iff (text : Bytes) : repaired text = text ↔ isUtf8 text = true := by
  rw [isUtf8, List.all_eq_true]
  constructor
  · intro same unit member
    have units : scalars text = (codePoints text).map fun code => ⟨code, encode code⟩ := by
      rw [repaired_eq] at same
      have read := scalarsFrom_encode (isScalar_of_codePoints text) (Nat.le_refl _)
      rw [same] at read
      exact read
    rw [units] at member
    obtain ⟨code, -, rfl⟩ := List.mem_map.mp member
    by_cases replaced : code = Scalar.replacement
    · subst replaced
      decide
    · simp [replaced]
  · intro fits
    have kept : ∀ unit ∈ scalars text, encode unit.code = unit.bytes := by
      intro unit member
      rcases isUnit_of_mem_scalars text unit member with ⟨-, bytes⟩ | ⟨replaced, _, -, single⟩
      · exact bytes.symm
      · have fits := fits unit member
        rw [replaced, single] at fits
        cases fits
    rw [repaired, List.flatMap_congr kept]
    exact flatMap_scalars text

/-! Strings. -/

def ReadsAs (written text : Bytes) : Prop :=
  ∃ used ≤ written.length, ∀ count rest,
    stringBody (used + count) (written ++ rest) = (stringBody count rest).map fun (more, rest) => (text ++ more, rest)

def isPlainByte (b : UInt8) : Bool := 32 ≤ b && b ≠ byte '"' && b ≠ byte '\\'

variable {rest : Bytes} {b : UInt8} {level code count : Nat}

theorem stringBody_plain (plain : isPlainByte b = true) (count : Nat) (rest : Bytes) :
    stringBody (count + 1) (b :: rest) = (stringBody count rest).map fun (more, rest) => (b :: more, rest) := by
  simp only [isPlainByte, Bool.and_eq_true, decide_eq_true_eq] at plain
  obtain ⟨⟨visible, noQuote⟩, noEscape⟩ := plain
  have visible : ¬b < 32 := by simpa using visible
  rw [stringBody, if_neg noQuote, if_neg visible, if_neg noEscape]
  cases read : stringBody count rest <;> simp [read]

theorem readsAs_plain (plain : ∀ b ∈ bytes, isPlainByte b = true) : ReadsAs bytes bytes := by
  refine ⟨bytes.length, Nat.le_refl _, fun count rest => ?_⟩
  induction bytes with
  | nil =>
    rw [List.length_nil, Nat.zero_add]
    exact Option.map_id'.symm
  | cons b others ih =>
    have count_succ : (b :: others).length + count = (others.length + count) + 1 := by
      rw [List.length_cons]
      omega
    rw [count_succ, List.cons_append, stringBody_plain (plain b (by simp)),
      ih fun b member => plain b (by simp [member]), Option.map_map]
    rfl

theorem readsAs_escaped {written text : Bytes} (read : ∀ rest, escaped? (written ++ rest) = some (text, rest)) :
    ReadsAs (byte '\\' :: written) text := by
  refine ⟨1, by simp, fun count rest => ?_⟩
  rw [Nat.add_comm, List.cons_append, stringBody, if_neg (by decide), if_neg (by decide), if_pos rfl, read]
  cases later : stringBody count rest <;> simp [later]

def isReadByFour (code : Nat) : Bool :=
  match paddedHex 4 code with
  | [a, b, c, d] => ([a, b, c, d].mapM hexDigit?).map (numberOf 16) = some code
  | _ => false

theorem readsAs_unicode (four : isReadByFour code = true) (plain : code < 0xD800 ∨ 0xDBFF < code) :
    ReadsAs ("\\u" ++ paddedHex 4 code) (encode code) := by
  rw [isReadByFour] at four
  split at four
  · next a b c d digits =>
    obtain ⟨values, mapped, value⟩ := Option.map_eq_some_iff.mp (of_decide_eq_true four)
    change ReadsAs (byte '\\' :: byte 'u' :: paddedHex 4 code) (encode code)
    refine readsAs_escaped fun rest => ?_
    have read : unit? (paddedHex 4 code ++ rest) = some (code, rest) := by
      rw [digits]
      simp [unit?, mapped, value]
    rw [List.cons_append, escaped?, if_pos rfl, unicode?, read]
    simp only [Option.bind_eq_bind, Option.bind_some]
    rw [if_neg (by simp; omega)]
    rfl
  · cases four

theorem toNat_of_mem_encode : ∀ b ∈ encode code, b.toNat = code ∨ 0x80 ≤ b.toNat := by
  intro b member
  have tail (n : Nat) : 0x80 ≤ (0x80 + n % 64).toUInt8.toNat := by rw [toNat_toUInt8] <;> omega
  have first {n : Nat} (small : n < 256) (high : 0x80 ≤ n) : 0x80 ≤ n.toUInt8.toNat := by rwa [toNat_toUInt8 small]
  simp only [encode] at member
  split at member
  · obtain rfl := List.mem_singleton.mp member
    exact .inl (toNat_toUInt8 (by omega))
  right
  split at member
  · rcases List.mem_pair.mp member with rfl | rfl
    · exact first (by omega) (by omega)
    · exact tail _
  split at member
  · simp only [List.mem_cons, List.not_mem_nil, or_false] at member
    rcases member with rfl | rfl | rfl <;> decide
  next fits =>
  simp only [Bool.or_eq_true, decide_eq_true_eq, not_or] at fits
  split at member <;> simp only [List.mem_cons, List.not_mem_nil, or_false] at member
  · rcases member with rfl | rfl | rfl
    · exact first (by omega) (by omega)
    · exact tail _
    · exact tail _
  · rcases member with rfl | rfl | rfl | rfl
    · exact first (by omega) (by omega)
    · exact tail _
    · exact tail _
    · exact tail _

theorem isPlainByte_of_mem_encode (visible : 32 ≤ code) (noQuote : code ≠ 34) (noEscape : code ≠ 92) :
    ∀ b ∈ encode code, isPlainByte b = true := by
  intro b member
  have value := toNat_of_mem_encode b member
  have quote : (byte '"').toNat = 34 := rfl
  have escape : (byte '\\').toNat = 92 := rfl
  simp only [isPlainByte, Bool.and_eq_true, decide_eq_true_eq, UInt8.le_iff_toNat_le, UInt8.reduceToNat, ne_eq,
    ← UInt8.toNat_inj, quote, escape]
  omega

theorem readsAs_letter (short : unit.code ∈ [34, 92, 8, 12, 10, 13, 9]) :
    ReadsAs (escape unit) (encode unit.code) := by
  have letter {mark : UInt8} {text : Bytes} (read : ∀ rest, escaped? (mark :: rest) = some (text, rest)) :
      ReadsAs [byte '\\', mark] text := readsAs_escaped read
  simp only [List.mem_cons, List.not_mem_nil, or_false] at short
  rw [escape]
  rcases short with code | code | code | code | code | code | code
  all_goals
    rw [code]
    exact letter fun _ => rfl

theorem readsAs_escape (isUnit : unit.IsUnit) : ReadsAs (escape unit) (encode unit.code) := by
  by_cases short : unit.code ∈ [34, 92, 8, 12, 10, 13, 9]
  · exact readsAs_letter short
  simp only [List.mem_cons, List.not_mem_nil, or_false, not_or] at short
  obtain ⟨quote, backslash, backspace, pageBreak, lineBreak, carriage, tab⟩ := short
  rw [escape, if_neg quote, if_neg backslash, if_neg backspace, if_neg pageBreak, if_neg lineBreak, if_neg carriage,
    if_neg tab]
  split
  · next marked =>
    simp only [Bool.or_eq_true, decide_eq_true_eq] at marked
    have control : ∀ code < 32, isReadByFour code = true := by decide +kernel
    have marks : ∀ code ∈ [60, 62, 38, 0x2028, 0x2029], isReadByFour code = true := by decide +kernel
    have four : isReadByFour unit.code = true := by
      by_cases low : unit.code < 32
      · exact control unit.code low
      · exact marks unit.code (by simp; omega)
    exact readsAs_unicode four (by omega)
  next unmarked =>
  simp only [Bool.or_eq_true, decide_eq_true_eq] at unmarked
  split
  · next replaced =>
    simp only [Bool.and_eq_true, decide_eq_true_eq] at replaced
    rw [replaced.1]
    have four : isReadByFour Scalar.replacement = true := by decide +kernel
    have written : utf8 "\\ufffd" = "\\u" ++ paddedHex 4 Scalar.replacement := by decide +kernel
    rw [written]
    exact readsAs_unicode four (by decide)
  · next kept =>
    rcases isUnit with ⟨-, bytes⟩ | ⟨replaced, _, -, single⟩
    · rw [bytes]
      exact readsAs_plain (isPlainByte_of_mem_encode (by omega) quote backslash)
    · exact absurd (by simp [replaced, single]) kept

theorem ReadsAs.append {first second text more : Bytes} (ofFirst : ReadsAs first text) (ofSecond : ReadsAs second more) :
    ReadsAs (first ++ second) (text ++ more) := by
  obtain ⟨used, within, reads⟩ := ofFirst
  obtain ⟨later, inside, readsLater⟩ := ofSecond
  refine ⟨used + later, by rw [List.length_append]; omega, fun count rest => ?_⟩
  rw [Nat.add_assoc, List.append_assoc, reads, readsLater, Option.map_map]
  congr 1
  funext entry
  simp

theorem readsAs_units {units : List Scalar} (isUnits : ∀ unit ∈ units, unit.IsUnit) :
    ReadsAs (units.flatMap escape) (units.flatMap fun unit => encode unit.code) := by
  induction units with
  | nil => exact readsAs_plain nofun
  | cons unit rest ih =>
    obtain ⟨first, others⟩ := List.forall_mem_cons.mp isUnits
    exact (readsAs_escape first).append (ih others)

theorem string?_stringText (text rest : Bytes) : string? (stringText text ++ rest) = some (repaired text, rest) := by
  obtain ⟨used, within, reads⟩ := readsAs_units (isUnit_of_mem_scalars text)
  have shape : stringText text ++ rest = byte '"' :: ((scalars text).flatMap escape ++ byte '"' :: rest) := by
    rw [stringText, List.append_assoc, List.append_assoc]
    rfl
  generalize (scalars text).flatMap escape = body at within reads shape
  have count : (body ++ byte '"' :: rest).length = used + (body.length - used + rest.length + 1) := by
    rw [List.length_append, List.length_cons]
    omega
  rw [shape, string?, if_pos rfl, count, reads, stringBody, if_pos rfl]
  simp only [Option.map_some, List.append_nil]
  rw [← repaired, repaired_repaired]

/-! Numbers. -/

def Ends (rest : Bytes) : Prop := ∀ b ∈ rest.head?, b = 44 ∨ b = 10

theorem digits?_ofNat (n : Nat) (ends : Ends rest) : digits? (Bytes.ofNat n ++ rest) = some (Bytes.ofNat n, rest) := by
  have stops : rest.takeWhile isDecimal = [] := by
    cases rest with
    | nil => rfl
    | cons b others => rcases ends b rfl with rfl | rfl <;> rfl
  have span : (Bytes.ofNat n ++ rest).takeWhile isDecimal = Bytes.ofNat n := by
    rw [List.takeWhile_append_of_pos fun b member => Bytes.isDecimal_of_mem_ofNat member, stops, List.append_nil]
  rw [digits?, span]
  simp [Bytes.ofNat_ne_nil]

theorem whole?_ofNat (n : Nat) (ends : Ends rest) : whole? (Bytes.ofNat n ++ rest) = some (Bytes.ofNat n, rest) := by
  have digits := digits?_ofNat n ends
  obtain ⟨first, others, shape⟩ := List.exists_cons_of_ne_nil (Bytes.ofNat_ne_nil n)
  rw [shape, List.cons_append] at digits ⊢
  rw [whole?]
  split
  · next zero =>
    obtain rfl : n = 0 := Bytes.eq_zero_of_head?_ofNat (by rw [shape, zero]; rfl)
    obtain ⟨rfl, rfl⟩ : first = 48 ∧ others = [] := by simpa [Bytes.ofNat, byte, eq_comm] using shape
    rfl
  · exact digits

theorem fraction?_of_ends (ends : Ends rest) : fraction? rest = some ([], rest) := by
  cases rest with
  | nil => rfl
  | cons b others => rcases ends b rfl with rfl | rfl <;> rfl

theorem exponent?_of_ends (ends : Ends rest) : exponent? rest = some ([], rest) := by
  cases rest with
  | nil => rfl
  | cons b others => rcases ends b rfl with rfl | rfl <;> rfl

theorem number?_signed (sign : Bytes) (n : Nat) (ends : Ends rest)
    (signed : ((sign ++ (Bytes.ofNat n ++ rest)).take 1).filter (· = byte '-') = sign) :
    number? (sign ++ (Bytes.ofNat n ++ rest)) = some (sign ++ Bytes.ofNat n, rest) := by
  rw [number?, signed, List.drop_left, whole?_ofNat n ends]
  simp [fraction?_of_ends ends, exponent?_of_ends ends]

theorem number?_ofInt (n : Int) (ends : Ends rest) : number? (Bytes.ofInt n ++ rest) = some (Bytes.ofInt n, rest) := by
  rw [Bytes.ofInt]
  split
  · rw [List.append_assoc]
    exact number?_signed (utf8 "-") n.natAbs ends rfl
  · obtain ⟨first, others, shape⟩ := List.exists_cons_of_ne_nil (Bytes.ofNat_ne_nil n.natAbs)
    have digit : isDecimal first = true := Bytes.isDecimal_of_mem_ofNat (by rw [shape]; exact List.mem_cons_self)
    have noSign : first ≠ byte '-' := by
      rintro rfl
      cases digit
    exact number?_signed [] n.natAbs ends (by simp [shape, noSign])

/-! Values. -/

structure Reads (level : Nat) (value read : Json) : Prop where
  starts : ∃ b rest, render level value = b :: rest ∧ isGap b = false ∧ b ≠ 93 ∧ b ≠ 125
  reads : ∀ count rest, (render level value).length ≤ count → Ends rest →
    value? count (render level value ++ rest) = some (read, rest)

theorem reads_string (level : Nat) (text : Bytes) : Reads level (.string text) (.string (repaired text)) := by
  have shape : render level (.string text) = byte '"' :: ((scalars text).flatMap escape ++ utf8 "\"") := rfl
  refine ⟨⟨_, _, shape, by decide, by decide, by decide⟩, fun count rest enough _ => ?_⟩
  obtain ⟨smaller, rfl⟩ : ∃ smaller, count = smaller + 1 := ⟨count - 1, by rw [shape, List.length_cons] at enough; omega⟩
  have read := string?_stringText text rest
  rw [shape, List.cons_append, value?, if_pos rfl]
  change (string? (stringText text ++ rest)).map _ = _
  rw [read]
  rfl

theorem value?_numeral (numeral : b = byte '-' ∨ isDecimal b = true) (count : Nat) (rest : Bytes) :
    value? (count + 1) (b :: rest) = (number? (b :: rest)).map fun (digits, rest) => (.number digits, rest) := by
  have other {c : UInt8} (apart : ¬(c = byte '-' ∨ isDecimal c = true)) : b ≠ c := fun same => apart (same ▸ numeral)
  have word {letter : UInt8} {letters : Bytes} (apart : b ≠ letter) :
      Bytes.after? (letter :: letters) (b :: rest) = none := by
    simp [Bytes.after?, Ne.symm apart]
  rw [value?, if_neg (other (by decide)), if_neg (other (by decide)), if_neg (other (by decide))]
  change ((Bytes.after? (110 :: [117, 108, 108]) _).map _ <|> (Bytes.after? (116 :: [114, 117, 101]) _).map _
    <|> (Bytes.after? (102 :: [97, 108, 115, 101]) _).map _ <|> _) = _
  rw [word (other (by decide)), word (other (by decide)), word (other (by decide))]
  simp

theorem reads_ofInt (level : Nat) (n : Int) : Reads level (.ofInt n) (.ofInt n) := by
  obtain ⟨b, others, shape, numeral⟩ : ∃ b others, Bytes.ofInt n = b :: others ∧ (b = byte '-' ∨ isDecimal b = true) := by
    rw [Bytes.ofInt]
    split
    · exact ⟨_, _, rfl, .inl rfl⟩
    · obtain ⟨first, others, shape⟩ := List.exists_cons_of_ne_nil (Bytes.ofNat_ne_nil n.natAbs)
      exact ⟨first, others, shape, .inr (Bytes.isDecimal_of_mem_ofNat (by rw [shape]; exact List.mem_cons_self))⟩
  have other {c : UInt8} (apart : ¬(c = byte '-' ∨ isDecimal c = true)) : b ≠ c := fun same => apart (same ▸ numeral)
  have written : render level (.ofInt n) = b :: others := shape
  refine ⟨⟨b, others, written, ?_, other (by decide), other (by decide)⟩, fun count rest enough ends => ?_⟩
  · cases gap : isGap b with
    | false => rfl
    | true =>
      simp only [isGap, Bool.or_eq_true, decide_eq_true_eq] at gap
      rcases gap with ((rfl | rfl) | rfl) | rfl <;> exact absurd rfl (other (by decide))
  · obtain ⟨smaller, rfl⟩ : ∃ smaller, count = smaller + 1 := ⟨count - 1, by rw [written, List.length_cons] at enough; omega⟩
    rw [written, List.cons_append, value?_numeral numeral, ← List.cons_append, ← shape, number?_ofInt n ends]
    rfl

/-! Entries of arrays and objects. -/

theorem dropGaps_visible (visible : isGap b = false) (rest : Bytes) : dropGaps (b :: rest) = b :: rest := by
  rw [dropGaps, List.dropWhile_cons_of_neg (by simp [visible])]

theorem dropGaps_newLine (level : Nat) (visible : isGap b = false) (rest : Bytes) :
    dropGaps (newLine level ++ b :: rest) = b :: rest := by
  have gaps : ∀ b ∈ newLine level, isGap b = true := by
    intro b member
    rcases List.mem_cons.mp member with rfl | space
    · rfl
    · rw [List.eq_of_mem_replicate space]
      rfl
  rw [dropGaps, List.dropWhile_append_of_pos gaps]
  exact dropGaps_visible visible rest

theorem separator?_close (close : Char) (apart : byte close ≠ byte ',') (visible : isGap (byte close) = false)
    (level : Nat) (rest : Bytes) : separator? close (newLine level ++ byte close :: rest) = some (.done, rest) := by
  rw [separator?, dropGaps_newLine level visible]
  simp [apart]

theorem separator?_comma (close : Char) (level : Nat) (visible : isGap b = false) (rest : Bytes) :
    separator? close (byte ',' :: (newLine level ++ b :: rest)) = some (.more, b :: rest) := by
  rw [separator?, dropGaps_visible (by decide)]
  simp only [if_true]
  rw [dropGaps_newLine level visible]

theorem ends_newLine (level : Nat) (rest : Bytes) : Ends (newLine level ++ rest) := by
  intro b first
  cases first
  exact .inr rfl

theorem ends_comma (rest : Bytes) : Ends (byte ',' :: rest) := by
  intro b first
  cases first
  exact .inl rfl

theorem items?_render (outer : Nat) {item read : Json} (first : Reads level item read)
    (later : List.Forall₂ (Reads level) items reads)
    (enough : (render level item).length + (renderItems level items).length < count) (rest : Bytes) :
    items? count (render level item ++ (renderItems level items ++ (newLine outer ++ byte ']' :: rest))) =
      some (read :: reads, rest) := by
  induction later generalizing item read count with
  | nil =>
    obtain ⟨count, rfl⟩ : ∃ smaller, count = smaller + 1 := ⟨count - 1, by omega⟩
    rw [renderItems, List.nil_append, items?, first.reads count _ (by omega) (ends_newLine outer _)]
    simp [separator?_close ']' (by decide) (by decide)]
  | @cons next nextRead items reads second later ih =>
    have shape : renderItems level (next :: items) =
        byte ',' :: (newLine level ++ (render level next ++ renderItems level items)) := by
      rw [renderItems, List.append_assoc, List.append_assoc]
      rfl
    rw [shape, List.length_cons, List.length_append, List.length_append] at enough
    obtain ⟨b, others, starts, visible, -⟩ := second.starts
    have more : separator? ']' (byte ',' :: (newLine level ++ (render level next ++ (renderItems level items ++
        (newLine outer ++ byte ']' :: rest))))) =
          some (.more, render level next ++ (renderItems level items ++ (newLine outer ++ byte ']' :: rest))) := by
      rw [starts, List.cons_append]
      exact separator?_comma ']' level visible _
    obtain ⟨count, rfl⟩ : ∃ smaller, count = smaller + 1 := ⟨count - 1, by omega⟩
    rw [shape, List.cons_append, List.append_assoc, List.append_assoc, items?,
      first.reads count _ (by omega) (ends_comma _)]
    simp [more, ih second (show _ < count by omega)]

theorem reads_array {items reads : List Json} (entries : List.Forall₂ (Reads (level + 1)) items reads)
    (nonempty : items ≠ []) : Reads level (.array items) (.array reads) := by
  cases entries with
  | nil => exact absurd rfl nonempty
  | @cons item read items reads first later =>
    have shape : render level (.array (item :: items)) = byte '[' :: (newLine (level + 1) ++
        (render (level + 1) item ++ (renderItems (level + 1) items ++ (newLine level ++ [byte ']'])))) := by
      rw [render]
      simp only [List.append_assoc]
      rfl
    refine ⟨⟨_, _, shape, by decide, by decide, by decide⟩, fun count rest enough _ => ?_⟩
    obtain ⟨b, others, starts, visible, noClose, -⟩ := first.starts
    rw [shape] at enough ⊢
    simp only [List.length_cons, List.length_append] at enough
    obtain ⟨count, rfl⟩ : ∃ smaller, count = smaller + 1 := ⟨count - 1, by omega⟩
    have read := items?_render level first later (show _ < count by omega) rest
    simp only [List.cons_append, List.append_assoc, List.nil_append]
    rw [value?, if_neg (by decide), if_pos rfl]
    rw [starts, List.cons_append] at read ⊢
    rw [dropGaps_newLine _ visible]
    split
    · next closes => exact absurd (List.cons.inj closes).1 noClose
    · rw [read]
      rfl

def ReadsMember (level : Nat) (member read : Bytes × Json) : Prop :=
  read.1 = repaired member.1 ∧ Reads level member.2 read.2

theorem members?_member {member read : Bytes × Json} (reads : ReadsMember level member read)
    (enough : (renderMember level member).length ≤ count) (ends : Ends rest) :
    members? (count + 1) (renderMember level member ++ rest) = (separator? '\x7d' rest).bind fun (separator, rest) =>
      match separator with
      | .done => some ([read], rest)
      | .more => (members? count rest).map fun (others, rest) => (read :: others, rest) := by
  obtain ⟨key, value⟩ := member
  obtain ⟨readKey, readValue⟩ := read
  obtain ⟨rfl, reads⟩ := reads
  dsimp only at reads
  have shape : renderMember level (key, value) ++ rest = stringText key ++ (58 :: 32 :: (render level value ++ rest)) := by
    rw [renderMember, List.append_assoc, List.append_assoc]
    rfl
  have within : (render level value).length ≤ count := by
    have lengths := congrArg List.length shape
    simp only [List.length_append, List.length_cons] at lengths
    omega
  have colon : Bytes.after? ":" (58 :: 32 :: (render level value ++ rest)) = some (32 :: (render level value ++ rest)) := rfl
  have space : dropGaps (32 :: (render level value ++ rest)) = render level value ++ rest := by
    obtain ⟨b, others, starts, visible, -⟩ := reads.starts
    rw [starts, List.cons_append, dropGaps, List.dropWhile_cons_of_pos (by rfl)]
    exact dropGaps_visible visible _
  rw [shape, members?, string?_stringText]
  simp only [Option.bind_eq_bind, Option.bind_some]
  rw [dropGaps_visible (by rfl), colon]
  simp only [Option.bind_some]
  rw [space, reads.reads count rest within ends]
  simp only [Option.bind_some]
  congr 1
  funext entry
  obtain ⟨separator, rest⟩ := entry
  cases separator with
  | done => rfl
  | more => cases later : members? count rest <;> simp [later]

theorem renderMember_starts (level : Nat) (member : Bytes × Json) : ∃ rest, renderMember level member = byte '"' :: rest := by
  obtain ⟨key, value⟩ := member
  exact ⟨_, rfl⟩

theorem members?_render (outer : Nat) {member read : Bytes × Json} (first : ReadsMember level member read)
    (later : List.Forall₂ (ReadsMember level) members reads)
    (enough : (renderMember level member).length + (renderMembers level members).length < count) (rest : Bytes) :
    members? count (renderMember level member ++ (renderMembers level members ++ (newLine outer ++ byte '\x7d' :: rest))) =
      some (read :: reads, rest) := by
  induction later generalizing member read count with
  | nil =>
    obtain ⟨count, rfl⟩ : ∃ smaller, count = smaller + 1 := ⟨count - 1, by omega⟩
    rw [renderMembers, List.nil_append, members?_member first (by omega) (ends_newLine outer _),
      separator?_close '\x7d' (by decide) (by decide)]
    rfl
  | @cons next nextRead members reads second later ih =>
    have shape : renderMembers level (next :: members) =
        byte ',' :: (newLine level ++ (renderMember level next ++ renderMembers level members)) := by
      rw [renderMembers, List.append_assoc, List.append_assoc]
      rfl
    rw [shape, List.length_cons, List.length_append, List.length_append] at enough
    obtain ⟨others, starts⟩ := renderMember_starts level next
    have more : separator? '\x7d' (byte ',' :: (newLine level ++ (renderMember level next ++ (renderMembers level members ++
        (newLine outer ++ byte '\x7d' :: rest))))) =
          some (.more, renderMember level next ++ (renderMembers level members ++ (newLine outer ++ byte '\x7d' :: rest))) := by
      rw [starts, List.cons_append]
      exact separator?_comma '\x7d' level (by decide) _
    obtain ⟨count, rfl⟩ : ∃ smaller, count = smaller + 1 := ⟨count - 1, by omega⟩
    rw [shape, List.cons_append, List.append_assoc, List.append_assoc,
      members?_member first (by omega) (ends_comma _), more]
    simp [ih second (show _ < count by omega)]

theorem reads_object {members reads : List (Bytes × Json)}
    (entries : List.Forall₂ (ReadsMember (level + 1)) members reads) (nonempty : members ≠ []) :
    Reads level (.object members) (.object reads) := by
  cases entries with
  | nil => exact absurd rfl nonempty
  | @cons member read members reads first later =>
    have shape : render level (.object (member :: members)) = byte '\x7b' :: (newLine (level + 1) ++
        (renderMember (level + 1) member ++ (renderMembers (level + 1) members ++ (newLine level ++ [byte '\x7d'])))) := by
      rw [render]
      simp only [List.append_assoc]
      rfl
    refine ⟨⟨_, _, shape, by decide, by decide, by decide⟩, fun count rest enough _ => ?_⟩
    obtain ⟨others, starts⟩ := renderMember_starts (level + 1) member
    rw [shape] at enough ⊢
    simp only [List.length_cons, List.length_append] at enough
    obtain ⟨count, rfl⟩ : ∃ smaller, count = smaller + 1 := ⟨count - 1, by omega⟩
    have read := members?_render level first later (show _ < count by omega) rest
    simp only [List.cons_append, List.append_assoc, List.nil_append]
    rw [value?, if_neg (by decide), if_neg (by decide), if_pos rfl]
    rw [starts, List.cons_append] at read ⊢
    rw [dropGaps_newLine _ (by decide)]
    split
    · next closes => exact absurd (List.cons.inj closes).1 (by decide)
    · rw [read]
      rfl

theorem parse?_text {value read : Json} (reads : Reads 0 value read) : parse? value.text = some read := by
  obtain ⟨b, others, starts, visible, -⟩ := reads.starts
  have whole := reads.reads (value.text.length + 1) [] (Nat.le_succ _) nofun
  rw [List.append_nil] at whole
  have visible : dropGaps value.text = render 0 value := by
    rw [text, starts]
    exact dropGaps_visible visible others
  rw [parse?, visible, whole]
  rfl

end Json

end Cb
