import Cb.Json.Basic
import Cb.Text.Digit

/-! Reading of JSON text. Strings come out as valid UTF-8: a lone surrogate or a bad byte reads as
U+FFFD. -/

namespace Cb.Json

def isGap (b : UInt8) : Bool := b = 32 || b = 9 || b = 10 || b = 13

def dropGaps (text : Bytes) : Bytes := text.dropWhile isGap

def digits? (text : Bytes) : Option (Bytes × Bytes) :=
  let span := text.takeWhile isDecimal
  if span.isEmpty then none else some (span, text.drop span.length)

def whole? (text : Bytes) : Option (Bytes × Bytes) :=
  match text with
  | first :: rest => if first = byte '0' then some ([first], rest) else digits? text
  | [] => none

def fraction? (text : Bytes) : Option (Bytes × Bytes) :=
  match text with
  | mark :: rest =>
    if mark = byte '.' then (digits? rest).map fun (span, rest) => (mark :: span, rest) else some ([], text)
  | [] => some ([], [])

def exponent? (text : Bytes) : Option (Bytes × Bytes) :=
  match text with
  | mark :: rest =>
    if mark = byte 'e' || mark = byte 'E' then
      let sign := (rest.take 1).filter fun b => b = byte '+' || b = byte '-'
      (digits? (rest.drop sign.length)).map fun (span, rest) => (mark :: (sign ++ span), rest)
    else some ([], text)
  | [] => some ([], [])

def number? (text : Bytes) : Option (Bytes × Bytes) := do
  let sign := (text.take 1).filter (· = byte '-')
  let (whole, rest) ← whole? (text.drop sign.length)
  let (fraction, rest) ← fraction? rest
  let (exponent, rest) ← exponent? rest
  return (sign ++ whole ++ fraction ++ exponent, rest)

def unit? (text : Bytes) : Option (Nat × Bytes) :=
  match text with
  | a :: b :: c :: d :: rest => do
    return (numberOf 16 (← [a, b, c, d].mapM hexDigit?), rest)
  | _ => none

def lowSurrogate? (text : Bytes) : Option (Nat × Bytes) := do
  let rest ← Bytes.after? "\\u" text
  let (low, rest) ← unit? rest
  if 0xDC00 ≤ low && low ≤ 0xDFFF then some (low, rest) else none

def unicode? (text : Bytes) : Option (Bytes × Bytes) := do
  let (high, rest) ← unit? text
  if 0xD800 ≤ high && high ≤ 0xDBFF then
    match lowSurrogate? rest with
    | some (low, rest) => return (encode (0x10000 + (high - 0xD800) * 1024 + (low - 0xDC00)), rest)
    | none => return (encode Scalar.replacement, rest)
  return (encode high, rest)

def escaped? : Bytes → Option (Bytes × Bytes)
  | [] => none
  | letter :: rest =>
    if letter = byte 'u' then unicode? rest
    else if letter = byte '"' || letter = byte '\\' || letter = byte '/' then some ([letter], rest)
    else if letter = byte 'b' then some ([8], rest)
    else if letter = byte 'f' then some ([12], rest)
    else if letter = byte 'n' then some ([10], rest)
    else if letter = byte 'r' then some ([13], rest)
    else if letter = byte 't' then some ([9], rest)
    else none

def stringBody : Nat → Bytes → Option (Bytes × Bytes)
  | 0, _ => none
  | _, [] => none
  | count + 1, b :: rest =>
    if b = byte '"' then some ([], rest)
    else if b < 32 then none
    else do
      let (unit, rest) ← if b = byte '\\' then escaped? rest else some ([b], rest)
      let (text, rest) ← stringBody count rest
      return (unit ++ text, rest)

def repaired (text : Bytes) : Bytes := (scalars text).flatMap fun unit => encode unit.code

def string? (text : Bytes) : Option (Bytes × Bytes) :=
  match text with
  | quote :: rest =>
    if quote = byte '"' then (stringBody rest.length rest).map fun (text, rest) => (repaired text, rest) else none
  | [] => none

inductive Separator where
  | more
  | done

def separator? (close : Char) (text : Bytes) : Option (Separator × Bytes) :=
  match dropGaps text with
  | b :: rest =>
    if b = byte ',' then some (.more, dropGaps rest)
    else if b = byte close then some (.done, rest)
    else none
  | [] => none

mutual

def value? : Nat → Bytes → Option (Json × Bytes)
  | 0, _ => none
  | _, [] => none
  | count + 1, text@(first :: rest) =>
    if first = byte '"' then (string? text).map fun (text, rest) => (.string text, rest)
    else if first = byte '[' then
      match dropGaps rest with
      | 93 :: rest => some (.array [], rest)
      | rest => (items? count rest).map fun (items, rest) => (.array items, rest)
    else if first = byte '\x7b' then
      match dropGaps rest with
      | 125 :: rest => some (.object [], rest)
      | rest => (members? count rest).map fun (members, rest) => (.object members, rest)
    else
      ((Bytes.after? "null" text).map (.null, ·))
        <|> ((Bytes.after? "true" text).map (.bool true, ·))
        <|> ((Bytes.after? "false" text).map (.bool false, ·))
        <|> ((number? text).map fun (digits, rest) => (.number digits, rest))

def items? : Nat → Bytes → Option (List Json × Bytes)
  | 0, _ => none
  | count + 1, text => do
    let (item, rest) ← value? count text
    match ← separator? ']' rest with
    | (.done, rest) => return ([item], rest)
    | (.more, rest) =>
      let (items, rest) ← items? count rest
      return (item :: items, rest)

def members? : Nat → Bytes → Option (List (Bytes × Json) × Bytes)
  | 0, _ => none
  | count + 1, text => do
    let (key, rest) ← string? text
    let rest ← Bytes.after? ":" (dropGaps rest)
    let (value, rest) ← value? count (dropGaps rest)
    match ← separator? '\x7d' rest with
    | (.done, rest) => return ([(key, value)], rest)
    | (.more, rest) =>
      let (members, rest) ← members? count rest
      return ((key, value) :: members, rest)

end

def parse? (text : Bytes) : Option Json := do
  let (value, rest) ← value? (text.length + 1) (dropGaps text)
  if (dropGaps rest).isEmpty then some value else none

end Cb.Json
