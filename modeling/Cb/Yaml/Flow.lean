import Cb.Text.Digit
import Cb.Yaml.Basic

/-! Values that stand on one line: quoted and plain scalars, lists in brackets, maps in braces. -/

namespace Cb.Yaml

def isGap (b : UInt8) : Bool := b = 32 || b = 9

def dropGaps (text : Bytes) : Bytes := text.dropWhile isGap

def atGap (text : Bytes) : Bool := text.head?.all isGap

def isFlowMark (b : UInt8) : Bool := (utf8 ",[]\x7b\x7d").contains b

def hexEscape? (width : Nat) (text : Bytes) : Option (Bytes × Bytes) := do
  let digits ← (text.take width).mapM hexDigit?
  if digits.length < width then none
  let code := numberOf 16 digits
  if 0x10FFFF < code || (0xD800 ≤ code && code ≤ 0xDFFF) then none
  return (encode code, text.drop width)

def letterEscape? (letter : UInt8) : Option Bytes :=
  let table : List (Char × Nat) :=
    [('0', 0), ('a', 7), ('b', 8), ('t', 9), ('n', 10), ('v', 11), ('f', 12), ('r', 13), ('e', 27), (' ', 32),
     ('"', 34), ('/', 47), ('\\', 92), ('N', 0x85), ('_', 0xA0), ('L', 0x2028), ('P', 0x2029)]
  (table.find? fun row => byte row.1 = letter).map fun row => encode row.2

def escape? : Bytes → Option (Bytes × Bytes)
  | [] => none
  | letter :: rest =>
    if letter = byte 'x' then hexEscape? 2 rest
    else if letter = byte 'u' then hexEscape? 4 rest
    else if letter = byte 'U' then hexEscape? 8 rest
    else (letterEscape? letter).map (·, rest)

def doubleQuoted : Nat → Bytes → Option (Bytes × Bytes)
  | 0, _ => none
  | _, [] => none
  | count + 1, b :: rest =>
    if b = byte '"' then some ([], rest)
    else do
      let (unit, rest) ← if b = byte '\\' then escape? rest else some ([b], rest)
      let (text, rest) ← doubleQuoted count rest
      return (unit ++ text, rest)

def singleQuoted : Bytes → Option (Bytes × Bytes)
  | [] => none
  | 39 :: 39 :: rest => (singleQuoted rest).map fun (text, rest) => (39 :: text, rest)
  | b :: rest => if b = 39 then some ([], rest) else (singleQuoted rest).map fun (text, rest) => (b :: text, rest)

def quotedScalar? : Bytes → Option (YamlScalar × Bytes)
  | [] => none
  | quote :: rest =>
    let found := if quote = byte '"' then doubleQuoted rest.length rest
      else if quote = 39 then singleQuoted rest else none
    found.map fun (text, rest) => (⟨text, false⟩, rest)

def startsPlain (inFlow : Bool) : Bytes → Bool
  | [] => false
  | b :: rest =>
    if b = byte '-' then !atGap rest
    else if b = byte '?' || b = byte ':' then !inFlow && !atGap rest
    else !isGap b && !(utf8 ",[]\x7b\x7d#&*!|>'\"%@`").contains b

/-- The bytes of a plain scalar: up to a colon before a gap, a comment or, between brackets, a mark. -/
def plainSpan (inFlow afterGap : Bool) : Bytes → Bytes × Bytes
  | [] => ([], [])
  | b :: rest =>
    let colon := b = byte ':' && (atGap rest || (inFlow && rest.head?.any isFlowMark))
    let comment := b = byte '#' && afterGap
    if colon || comment || (inFlow && isFlowMark b) then ([], b :: rest)
    else
      let (text, rest) := plainSpan inFlow (isGap b) rest
      (b :: text, rest)

def trimGaps (text : Bytes) : Bytes := (text.reverse.dropWhile isGap).reverse

def plainScalar? (inFlow : Bool) (text : Bytes) : Option (YamlScalar × Bytes) :=
  if startsPlain inFlow text then
    let (span, rest) := plainSpan inFlow false text
    some (⟨trimGaps span, true⟩, rest)
  else none

def scalar? (inFlow : Bool) (text : Bytes) : Option (YamlScalar × Bytes) :=
  quotedScalar? text <|> plainScalar? inFlow text

def afterColon? (text : Bytes) : Option Bytes :=
  match dropGaps text with
  | b :: rest => if b = byte ':' then some (dropGaps rest) else none
  | [] => none

def afterEntry? (close : Char) (text : Bytes) : Option Bytes :=
  match dropGaps text with
  | b :: rest =>
    if b = byte ',' then some (dropGaps rest)
    else if b = byte close then some (b :: rest)
    else none
  | [] => none

mutual

def flowNode : Nat → Bytes → Option (Yaml × Bytes)
  | 0, _ => none
  | _, [] => none
  | count + 1, b :: rest =>
    if b = byte '[' then (flowItems count (dropGaps rest)).map fun (items, rest) => (.list items, rest)
    else if b = byte '\x7b' then (flowEntries count (dropGaps rest)).map fun (entries, rest) => (.map entries, rest)
    else (scalar? true (b :: rest)).map fun (value, rest) => (.scalar value, rest)

def flowItems : Nat → Bytes → Option (List Yaml × Bytes)
  | 0, _ => none
  | _, [] => none
  | count + 1, b :: rest =>
    if b = byte ']' then some ([], rest)
    else do
      let (item, rest) ← flowNode count (b :: rest)
      let (item, rest) ← match item, afterColon? rest with
        | .scalar key, some rest => (flowValue count rest).map fun (value, rest) => (.map [(key, value)], rest)
        | item, _ => some (item, rest)
      let (items, rest) ← flowItems count (← afterEntry? ']' rest)
      return (item :: items, rest)

def flowEntries : Nat → Bytes → Option (List (YamlScalar × Yaml) × Bytes)
  | 0, _ => none
  | _, [] => none
  | count + 1, b :: rest =>
    if b = byte '\x7d' then some ([], rest)
    else do
      let (key, rest) ← scalar? true (b :: rest)
      let (value, rest) ← match afterColon? rest with
        | some rest => flowValue count rest
        | none => some (.null, rest)
      let (entries, rest) ← flowEntries count (← afterEntry? '\x7d' rest)
      return ((key, value) :: entries, rest)

def flowValue : Nat → Bytes → Option (Yaml × Bytes)
  | 0, _ => none
  | count + 1, text =>
    match text.head? with
    | some b => if b = byte ',' || b = byte ']' || b = byte '\x7d' then some (.null, text) else flowNode count text
    | none => none

end

def endsLine (text : Bytes) : Bool := (dropGaps text).head?.all (· = byte '#')

end Cb.Yaml
