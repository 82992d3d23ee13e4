import Cb.Text.Utf8

/-! Blank characters, and the operations that cut a text at them. -/

namespace Cb

/-- The code points with the Unicode property White_Space. -/
def isBlank (code : Nat) : Bool :=
  (9 ≤ code && code ≤ 13) || code == 32 || code == 0x85 || code == 0xA0 || code == 0x1680
    || (0x2000 ≤ code && code ≤ 0x200A) || code == 0x2028 || code == 0x2029 || code == 0x202F
    || code == 0x205F || code == 0x3000

def ofScalars (units : List Scalar) : Bytes := units.flatMap (·.bytes)

def trim (text : Bytes) : Bytes :=
  let blank (unit : Scalar) : Bool := isBlank unit.code
  ofScalars (((scalars text).dropWhile blank).reverse.dropWhile blank).reverse

def gatherWords (word : List Scalar) : List Scalar → List Bytes
  | [] => if word.isEmpty then [] else [ofScalars word.reverse]
  | unit :: rest =>
    if isBlank unit.code then
      if word.isEmpty then gatherWords [] rest else ofScalars word.reverse :: gatherWords [] rest
    else gatherWords (unit :: word) rest

def words (text : Bytes) : List Bytes := gatherWords [] (scalars text)

end Cb
