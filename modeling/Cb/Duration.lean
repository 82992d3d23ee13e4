import Cb.Text.Digit

/-! Spans of time, counted in nanoseconds. -/

namespace Cb

abbrev Duration := Int

namespace Duration

def second : Nat := 1000000000

def units : List (String × Nat) :=
  [("ns", 1), ("us", 1000), ("µs", 1000), ("μs", 1000), ("ms", 1000000), ("s", second), ("m", 60 * second),
   ("h", 3600 * second)]

def term? (text : Bytes) : Option (Nat × Bytes) := do
  let whole := text.takeWhile isDecimal
  let rest := text.drop whole.length
  let (fraction, rest) := match rest with
    | 46 :: rest => (rest.takeWhile isDecimal, rest.dropWhile isDecimal)
    | rest => ([], rest)
  if whole.isEmpty && fraction.isEmpty then none
  let name := rest.takeWhile fun b => b ≠ byte '.' && !isDecimal b
  let (_, length) ← units.find? (utf8 ·.1 = name)
  return (decimalOf whole * length + decimalOf fraction * length / Nat.pow 10 fraction.length, rest.drop name.length)

def terms? : Nat → Bytes → Option Nat
  | 0, _ => none
  | count + 1, text => do
    let (length, rest) ← term? text
    if rest.isEmpty then return length
    return length + (← terms? count rest)

/-- Reads a span such as `-1.5h` or `2m30s`. A bare zero needs no unit. -/
def parse? (text : Bytes) : Option Duration := do
  let (negative, rest) := match text with
    | 45 :: rest => (true, rest)
    | 43 :: rest => (false, rest)
    | rest => (false, rest)
  if rest = "0" then return 0
  let length ← terms? rest.length rest
  if wordLimit ≤ length && !(negative && length = wordLimit) then none
  return if negative then -(length : Int) else length

def decimals (number places : Nat) : Bytes :=
  let digits := Bytes.ofNat (number % Nat.pow 10 places)
  let padded := List.replicate (places - digits.length) (byte '0') ++ digits
  let kept := (padded.reverse.dropWhile (· = byte '0')).reverse
  let fraction : Bytes := if kept.isEmpty then [] else "." ++ kept
  Bytes.ofNat (number / Nat.pow 10 places) ++ fraction

def text (span : Duration) : Bytes :=
  let length := span.natAbs
  let sign : Bytes := if span < 0 then "-" else []
  let minutes := length / (60 * second)
  let amount : Bytes :=
    if length = 0 then "0s"
    else if length < 1000 then Bytes.ofNat length ++ "ns"
    else if length < 1000000 then decimals length 3 ++ "µs"
    else if length < second then decimals length 6 ++ "ms"
    else
      let hours : Bytes := if minutes < 60 then [] else Bytes.ofNat (minutes / 60) ++ "h"
      let rest : Bytes := if minutes = 0 then [] else Bytes.ofNat (minutes % 60) ++ "m"
      hours ++ rest ++ decimals (length % (60 * second)) 9 ++ "s"
  sign ++ amount

end Duration

end Cb
