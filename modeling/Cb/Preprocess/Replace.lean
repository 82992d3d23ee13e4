import Cb.Settings.Basic

/-! Comments and macros within one line. Neither reaches into text between quotes; a backslash there
takes the meaning of the next byte away. -/

namespace Cb.Preprocess

def backslash : UInt8 := 92

def isQuote (b : UInt8) : Bool := b = byte '\'' || b = byte '"'

def startsName (b : UInt8) : Bool :=
  (byte 'a' ≤ b && b ≤ byte 'z') || (byte 'A' ≤ b && b ≤ byte 'Z') || b = byte '_'

def continuesName (b : UInt8) : Bool := startsName b || (byte '0' ≤ b && b ≤ byte '9')

def isName : Bytes → Bool
  | [] => false
  | first :: rest => startsName first && rest.all continuesName

/-- The line up to a comment. `quote` is the mark that ends the quoted text we are in. -/
def cutCommentIn (quote : Option UInt8) : Bytes → Bytes
  | [] => []
  | b :: rest =>
    match quote with
    | some mark =>
      if b = backslash then
        match rest with
        | [] => [b]
        | next :: others => b :: next :: cutCommentIn quote others
      else b :: cutCommentIn (if b = mark then none else quote) rest
    | none =>
      if b = byte '/' && rest.head? = some (byte '/') then []
      else b :: cutCommentIn (if isQuote b then some b else none) rest

def cutComment (line : Bytes) : Bytes := cutCommentIn none line

/-- What a word stands for. Words that start with a digit stand for themselves. -/
def expand (macros : Macros) (word : Bytes) : Bytes :=
  match word with
  | [] => []
  | first :: _ => if startsName first then (macros.find? word).getD word else word

def replaceIn (macros : Macros) (quote : Option UInt8) (word : Bytes) : Bytes → Bytes
  | [] => expand macros word
  | b :: rest =>
    match quote with
    | some mark =>
      if b = backslash then
        match rest with
        | [] => [b]
        | next :: others => b :: next :: replaceIn macros quote [] others
      else b :: replaceIn macros (if b = mark then none else quote) [] rest
    | none =>
      if continuesName b then replaceIn macros none (word ++ [b]) rest
      else expand macros word ++ b :: replaceIn macros (if isQuote b then some b else none) [] rest

def replace (macros : Macros) (line : Bytes) : Bytes := replaceIn macros none [] line

end Cb.Preprocess
