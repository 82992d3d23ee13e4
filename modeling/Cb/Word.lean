import Cb.Text.LowerCase

/-! Words of the source text. The reader sees single bytes as code points, so its letters are those
of Latin-1. Names do not depend on case and are kept in lower case. -/

namespace Cb

def isLetter (code : Nat) : Bool :=
  (65 ≤ code && code ≤ 90) || (97 ≤ code && code ≤ 122) || code == 0xAA || code == 0xB5 || code == 0xBA
    || (0xC0 ≤ code && code ≤ 0xD6) || (0xD8 ≤ code && code ≤ 0xF6) || (0xF8 ≤ code && code ≤ 0xFF)

def isDigit (code : Nat) : Bool := 48 ≤ code && code ≤ 57

def startsWord (code : Nat) : Bool := code == 95 || isLetter code

def continuesWord (code : Nat) : Bool := startsWord code || isDigit code

def reservedWords : List Bytes :=
  ["int", "byte", "void", "for", "while", "if", "else", "return", "sizeof", "__asm", "break",
   "continue", "null"].map utf8

def isReserved (word : Bytes) : Bool := reservedWords.contains (lower word)

end Cb
