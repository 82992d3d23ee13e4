import Cb.Text.Bytes

/-! Decimal and hexadecimal digits. -/

namespace Cb

def isDecimal (b : UInt8) : Bool := byte '0' ≤ b && b ≤ byte '9'

def hexDigit? (b : UInt8) : Option Nat :=
  if isDecimal b then some (b.toNat - 48)
  else if byte 'a' ≤ b && b ≤ byte 'f' then some (b.toNat - 87)
  else if byte 'A' ≤ b && b ≤ byte 'F' then some (b.toNat - 55)
  else none

def numberOf (base : Nat) (digits : List Nat) : Nat := digits.foldl (fun number digit => number * base + digit) 0

def decimalOf (digits : Bytes) : Nat := numberOf 10 (digits.map fun b => b.toNat - 48)

/-- Whole numbers of 64 bits lie below this and not below its negative. -/
def wordLimit : Nat := 0x8000000000000000

end Cb
