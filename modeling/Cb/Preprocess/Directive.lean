import Cb.Preprocess.Replace

/-! Directives: lines whose first character is a hash. -/

namespace Cb.Preprocess

def splitWord (text : Bytes) : Bytes × Bytes :=
  let ends (b : UInt8) : Bool := b = 32 || b = 9
  let word := text.takeWhile (!ends ·)
  (word, trim (text.drop (word.length + 1)))

inductive Directive where
  | ifDefined (name : Bytes) (wanted : Bool)
  | otherwise
  | endIf
  | include (argument : Bytes)
  | define (argument : Bytes)
  | undef (name : Bytes)
  | pragma (argument : Bytes)
  | unknown (text : Bytes)
deriving DecidableEq, Repr

namespace Directive

def parse? (line : Bytes) : Option Directive :=
  match trim line with
  | [] => none
  | first :: rest =>
    if first ≠ byte '#' then none
    else
      let text := trim rest
      let (word, argument) := splitWord text
      some <|
        if word = "ifdef" then .ifDefined argument true
        else if word = "ifndef" then .ifDefined argument false
        else if word = "else" then .otherwise
        else if word = "endif" then .endIf
        else if word = "include" then .include argument
        else if word = "define" then .define argument
        else if word = "undef" then .undef argument
        else if word = "pragma" then .pragma argument
        else .unknown text

end Directive

inductive Target where
  | path (name : Bytes)
  | library (name : Bytes)
  | invalid (argument : Bytes)

namespace Target

def between? (first last : Char) (argument : Bytes) : Option Bytes :=
  if 2 ≤ argument.length && argument.head? = some (byte first) && argument.getLast? = some (byte last) then
    some (trim (argument.drop 1).dropLast)
  else none

def parse (argument : Bytes) : Target :=
  match between? '"' '"' argument, between? '<' '>' argument with
  | some name, _ => .path name
  | none, some name => .library (name ++ ".cb")
  | none, none => .invalid argument

end Target

end Cb.Preprocess
