import Cb.Text.Bytes

/-! Code points of a byte string. A byte that starts no well-formed sequence stands for itself alone
and reads as the replacement character U+FFFD. -/

namespace Cb

structure Scalar where
  code : Nat
  bytes : Bytes
deriving DecidableEq, Repr

namespace Scalar

def replacement : Nat := 0xFFFD

def continues (b : UInt8) : Bool := 0x80 ≤ b && b ≤ 0xBF

def low (b : UInt8) : Nat := b.toNat % 64

def two? (a b : UInt8) : Option Scalar :=
  if 0xC2 ≤ a && a ≤ 0xDF && continues b then some ⟨(a.toNat % 32) * 64 + low b, [a, b]⟩ else none

def three? (a b c : UInt8) : Option Scalar :=
  let code := (a.toNat % 16) * 4096 + low b * 64 + low c
  if 0xE0 ≤ a && a ≤ 0xEF && continues b && continues c && 0x800 ≤ code && !(0xD800 ≤ code && code ≤ 0xDFFF)
  then some ⟨code, [a, b, c]⟩ else none

def four? (a b c d : UInt8) : Option Scalar :=
  let code := (a.toNat % 8) * 262144 + low b * 4096 + low c * 64 + low d
  if 0xF0 ≤ a && a ≤ 0xF4 && continues b && continues c && continues d && 0x10000 ≤ code && code ≤ 0x10FFFF
  then some ⟨code, [a, b, c, d]⟩ else none

def leading? : Bytes → Option Scalar
  | [] => none
  | a :: rest =>
    if a < 0x80 then some ⟨a.toNat, [a]⟩
    else match rest with
      | b :: c :: d :: _ => two? a b <|> three? a b c <|> four? a b c d
      | [b, c] => two? a b <|> three? a b c
      | [b] => two? a b
      | [] => none

end Scalar

def scalarsFrom : Nat → Bytes → List Scalar
  | 0, _ => []
  | _, [] => []
  | count + 1, text@(a :: rest) =>
    match Scalar.leading? text with
    | some found => found :: scalarsFrom count (text.drop found.bytes.length)
    | none => ⟨Scalar.replacement, [a]⟩ :: scalarsFrom count rest

def scalars (text : Bytes) : List Scalar := scalarsFrom text.length text

def codePoints (text : Bytes) : List Nat := (scalars text).map (·.code)

/-- The bytes of a code point; one that is no character is written as U+FFFD. -/
def encode (code : Nat) : Bytes :=
  let top (divisor : Nat) : Nat := code / divisor
  let tail (divisor : Nat) : UInt8 := (0x80 + code / divisor % 64).toUInt8
  if code < 0x80 then [code.toUInt8]
  else if code < 0x800 then [(0xC0 + top 64).toUInt8, tail 1]
  else if 0x10FFFF < code || (0xD800 ≤ code && code ≤ 0xDFFF) then [0xEF, 0xBF, 0xBD]
  else if code < 0x10000 then [(0xE0 + top 4096).toUInt8, tail 64, tail 1]
  else [(0xF0 + top 262144).toUInt8, tail 4096, tail 64, tail 1]

def isUtf8 (text : Bytes) : Bool :=
  (scalars text).all fun unit => unit.code != Scalar.replacement || unit.bytes.length == 3

end Cb
