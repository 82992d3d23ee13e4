import Cb.Files.Basic
import Cb.Text.Utf8

/-! Patterns of file names: `*` stands for any text, `?` for one character, brackets for one of a
set, and a backslash takes the next character as it is. -/

namespace Cb

inductive GlobPart where
  | star
  | any
  | literal (value : UInt8)
  | oneOf (negated : Bool) (ranges : List (Nat × Nat))
deriving DecidableEq, Repr

namespace Glob

def member? (text : Bytes) : Option (Nat × Bytes) := do
  let plain ← match text with
    | [] => none
    | first :: rest =>
      if first = byte '-' || first = byte ']' then none
      else if first = byte '\\' then some rest
      else some text
  let unit ← Scalar.leading? plain
  let rest := plain.drop unit.bytes.length
  if rest.isEmpty then none else some (unit.code, rest)

def ranges? (isFirst : Bool) : Nat → Bytes → Option (List (Nat × Nat) × Bytes)
  | 0, _ => none
  | count + 1, text =>
    match text, isFirst with
    | 93 :: rest, false => some ([], rest)
    | _, _ => do
      let (low, rest) ← member? text
      let (high, rest) ← match rest with
        | 45 :: rest => member? rest
        | rest => some (low, rest)
      let (ranges, rest) ← ranges? false count rest
      return ((low, high) :: ranges, rest)

def parts? : Nat → Bytes → Option (List GlobPart)
  | _, [] => some []
  | 0, _ => none
  | count + 1, first :: rest =>
    if first = byte '*' then (parts? count rest).map (.star :: ·)
    else if first = byte '?' then (parts? count rest).map (.any :: ·)
    else if first = byte '[' then do
      let negated := rest.head? = some (byte '^')
      let (ranges, rest) ← ranges? true rest.length (if negated then rest.drop 1 else rest)
      (parts? count rest).map (.oneOf negated ranges :: ·)
    else if first = byte '\\' then
      match rest with
      | [] => none
      | value :: rest => (parts? count rest).map (.literal value :: ·)
    else (parts? count rest).map (.literal first :: ·)

def parse? (pattern : Bytes) : Option (List GlobPart) := parts? pattern.length pattern

/-- The ends of a name that a star may leave: it does not reach over a slash. -/
def remainders : Bytes → List Bytes
  | [] => [[]]
  | first :: rest => (first :: rest) :: (if first = Path.slash then [] else remainders rest)

def next? : Bytes → Option (Nat × Bytes)
  | [] => none
  | first :: rest =>
    match Scalar.leading? (first :: rest) with
    | some unit => some (unit.code, (first :: rest).drop unit.bytes.length)
    | none => some (Scalar.replacement, rest)

def accepts : List GlobPart → Bytes → Bool
  | [], name => name.isEmpty
  | .star :: parts, name => (remainders name).any fun rest => accepts parts rest
  | .any :: parts, name => (next? name).any fun (code, rest) => code ≠ 47 && accepts parts rest
  | .literal value :: parts, name =>
    match name with
    | first :: rest => first = value && accepts parts rest
    | [] => false
  | .oneOf negated ranges :: parts, name =>
    (next? name).any fun (code, rest) =>
      (ranges.any fun (low, high) => low ≤ code && code ≤ high) != negated && accepts parts rest

def isPattern (text : Bytes) : Bool := text.any (utf8 "*?[\\").contains

end Glob

namespace Files

def globIn (files : Files) (parts : List GlobPart) (dir : Bytes) : List Bytes :=
  match files.locate dir with
  | .ok place =>
    if files.isDirectory place then
      ((files.names place).filter (Glob.accepts parts)).map (Path.join dir)
    else []
  | .error _ => []

def globDirectory (text : Bytes) : Bytes :=
  if text.isEmpty then "." else if text = [Path.slash] then text else text.dropLast

def globFrom (files : Files) : Nat → Bytes → List Bytes
  | 0, _ => []
  | count + 1, pattern =>
    if !Glob.isPattern pattern then if files.exists? pattern then [pattern] else []
    else
      let name := Path.lastPart pattern
      let dir := globDirectory (pattern.take (pattern.length - name.length))
      let parts := (Glob.parse? name).getD []
      let dirs := if Glob.isPattern dir then files.globFrom count dir else [dir]
      dirs.flatMap (files.globIn parts)

def glob? (files : Files) (pattern : Bytes) : Option (List Bytes) :=
  (Glob.parse? pattern).map fun _ => files.globFrom (pattern.length + 1) pattern

end Files

end Cb
