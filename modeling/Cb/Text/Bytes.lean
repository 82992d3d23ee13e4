/-! Byte strings. Source text need not be valid in any encoding, so names, messages and whole files
are lists of bytes. A string literal stands for its UTF-8 bytes. -/

namespace Cb

abbrev Bytes := List UInt8

instance : LawfulBEq Bytes := inferInstanceAs (LawfulBEq (List UInt8))

def utf8 (text : String) : Bytes := text.toByteArray.data.toList

instance : Coe String Bytes := ⟨utf8⟩

def byte (character : Char) : UInt8 := character.toNat.toUInt8

namespace Bytes

def ofNat (number : Nat) : Bytes := (Nat.toDigits 10 number).map byte

def ofInt (number : Int) : Bytes :=
  if number < 0 then "-" ++ ofNat number.natAbs else ofNat number.natAbs

def signed (number : Int) : Bytes :=
  if number < 0 then ofInt number else "+" ++ ofInt number

def hex (number : Nat) : Bytes := (Nat.toDigits 16 number).map byte

def join (separator : Bytes) : List Bytes → Bytes
  | [] => []
  | [part] => part
  | part :: rest => part ++ separator ++ join separator rest

def spaces (count : Nat) : Bytes := List.replicate count 32

def after? (front : Bytes) (text : Bytes) : Option Bytes :=
  if front.isPrefixOf text then some (text.drop front.length) else none

def before? (back : Bytes) (text : Bytes) : Option Bytes :=
  if back.isSuffixOf text then some (text.take (text.length - back.length)) else none

def dropFront (front text : Bytes) : Bytes := (after? front text).getD text

def dropBack (back text : Bytes) : Bytes := (before? back text).getD text

def cut? (mark : UInt8) : Bytes → Option (Bytes × Bytes)
  | [] => none
  | first :: rest =>
    if first = mark then some ([], rest)
    else (cut? mark rest).map fun (before, after) => (first :: before, after)

def split (mark : UInt8) : Bytes → List Bytes
  | [] => [[]]
  | first :: rest =>
    if first = mark then [] :: split mark rest
    else match split mark rest with
      | [] => [[first]]
      | part :: parts => (first :: part) :: parts

def lines (text : Bytes) : List Bytes :=
  let parts := split 10 text
  if parts.getLast? = some [] then parts.dropLast else parts

def unlines (parts : List Bytes) : Bytes := parts.flatMap (· ++ [10])

def replaceByte (old new : UInt8) (text : Bytes) : Bytes :=
  text.map fun b => if b = old then new else b

def replaceFrom (old new : Bytes) (skip : Nat) : Bytes → Bytes
  | [] => []
  | first :: rest =>
    match skip with
    | skip + 1 => replaceFrom old new skip rest
    | 0 =>
      if old.isPrefixOf (first :: rest) then new ++ replaceFrom old new (old.length - 1) rest
      else first :: replaceFrom old new 0 rest

def replace (old new text : Bytes) : Bytes := replaceFrom old new 0 text

def holds (part : Bytes) : Bytes → Bool
  | [] => part.isEmpty
  | text@(_ :: rest) => part.isPrefixOf text || holds part rest

def lessThan : Bytes → Bytes → Bool
  | [], [] => false
  | [], _ :: _ => true
  | _ :: _, [] => false
  | a :: as, b :: bs => a < b || (a == b && lessThan as bs)

end Bytes

end Cb
