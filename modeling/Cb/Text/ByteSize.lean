import Cb.Text.Bytes

/-! Amounts of bytes for people: units grow by a thousand, small numbers show one decimal. -/

namespace Cb.ByteSize

def units : List String := ["B", "kB", "MB", "GB", "TB", "PB", "EB"]

def power (count : Nat) : Nat → Nat
  | 0 => 0
  | room + 1 => if count < 1000 then 0 else power (count / 1000) room + 1

def roundUp (number divisor : Nat) : Nat := (2 * number + divisor) / (2 * divisor)

def wholeOfTenths (tenths : Nat) : Nat :=
  let whole := tenths / 10
  if 5 < tenths % 10 || (tenths % 10 = 5 && whole % 2 = 1) then whole + 1 else whole

def text (count : Nat) : Bytes :=
  if count < 10 then Bytes.ofNat count ++ " B"
  else
    let exponent := power count (units.length - 1)
    let tenths := roundUp (count * 10) (Nat.pow 1000 exponent)
    let amount : Bytes :=
      if tenths < 100 then Bytes.ofNat (tenths / 10) ++ "." ++ Bytes.ofNat (tenths % 10)
      else Bytes.ofNat (wholeOfTenths tenths)
    amount ++ " " ++ units.getD exponent ""

end Cb.ByteSize
