import Cb.Text.Utf8
import Cb.Text.Printable

/-! A text between double quotes on one line of printable characters. -/

namespace Cb

def escapeLetter? (code : Nat) : Option Char :=
  match code with
  | 7 => some 'a'
  | 8 => some 'b'
  | 9 => some 't'
  | 10 => some 'n'
  | 11 => some 'v'
  | 12 => some 'f'
  | 13 => some 'r'
  | 34 => some '"'
  | 92 => some '\\'
  | _ => none

def paddedHex (width number : Nat) : Bytes :=
  let digits := Bytes.hex number
  List.replicate (width - digits.length) (byte '0') ++ digits

/-- Printable characters stay; a byte outside any character is written by its value. -/
def Scalar.quoted (unit : Scalar) : Bytes :=
  match escapeLetter? unit.code with
  | some letter => [byte '\\', byte letter]
  | none =>
    match unit.bytes with
    | [single] => if isPrintable single.toNat && single < 0x80 then [single] else "\\x" ++ paddedHex 2 single.toNat
    | bytes =>
      if isPrintable unit.code then bytes
      else if unit.code < 0x10000 then "\\u" ++ paddedHex 4 unit.code
      else "\\U" ++ paddedHex 8 unit.code

def quoted (text : Bytes) : Bytes := "\"" ++ (scalars text).flatMap Scalar.quoted ++ "\""

end Cb
