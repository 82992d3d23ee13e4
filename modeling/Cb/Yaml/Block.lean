import Cb.Yaml.Flow

/-! Documents made of lines, where indentation shows what belongs together. -/

namespace Cb.Yaml

structure BlockLine where
  indent : Nat
  text : Bytes
deriving DecidableEq, Repr

def blockLines : List Bytes → Option (List BlockLine)
  | [] => some []
  | line :: rest =>
    let text := line.dropWhile (· = 32)
    let more := blockLines rest
    match text with
    | [] => more
    | first :: _ =>
      if first = 9 then none
      else if first = byte '#' then more
      else more.map (⟨line.length - text.length, text⟩ :: ·)

def BlockLine.isMark (marks : List String) (line : BlockLine) : Bool :=
  line.indent = 0 && marks.any fun mark => (Bytes.after? mark line.text).any fun rest => atGap rest && endsLine rest

def firstDocument (lines : List BlockLine) : List BlockLine :=
  let lines := match lines with
    | first :: rest => if first.isMark ["---"] then rest else lines
    | [] => []
  lines.takeWhile fun line => !line.isMark ["---", "..."]

def BlockLine.item? (line : BlockLine) : Option Bytes :=
  match line.text with
  | b :: rest => if b = byte '-' && atGap rest then some rest else none
  | [] => none

def BlockLine.entry? (line : BlockLine) : Option (YamlScalar × Bytes) := do
  let (key, rest) ← scalar? false line.text
  match dropGaps rest with
  | b :: rest => if b = byte ':' && atGap rest then some (key, dropGaps rest) else none
  | [] => none

def chunks (heads : BlockLine → Bool) : List BlockLine → List (BlockLine × List BlockLine)
  | [] => []
  | line :: rest =>
    let grouped := chunks heads rest
    let tail := rest.takeWhile fun next => !heads next
    if heads line then (line, tail) :: grouped else grouped

def continued? (text : Bytes) : List BlockLine → Option Bytes
  | [] => some text
  | line :: more =>
    match plainSpan false true line.text with
    | (span, []) => continued? (text ++ [32] ++ trimGaps span) more
    | (span, rest) => if more.isEmpty && endsLine rest then some (text ++ [32] ++ trimGaps span) else none

def inlineValue? (text : Bytes) (below : List BlockLine) : Option Yaml :=
  match plainScalar? false text with
  | some (value, rest) =>
    if rest.isEmpty then (continued? value.text below).map fun text => .scalar ⟨text, true⟩
    else if below.isEmpty && endsLine rest then some (.scalar value)
    else none
  | none => do
    let (value, rest) ← flowNode (2 * text.length + 2) text
    if below.isEmpty && endsLine rest then some value else none

def block : Nat → List BlockLine → Option Yaml
  | 0, _ => none
  | _, [] => some .null
  | depth + 1, lines@(first :: below) =>
    let indent := first.indent
    if first.item?.isSome then
      if lines.any fun line => line.indent < indent || (line.indent = indent && line.item?.isNone) then none
      else
        let items := (chunks (·.indent = indent) lines).mapM fun (head, tail) =>
          let text := head.item?.getD []
          let inner := dropGaps text
          if endsLine inner then block depth tail
          else if (text.take (text.length - inner.length)).contains 9 then none
          else block depth (⟨indent + 1 + (text.length - inner.length), inner⟩ :: tail)
        items.map .list
    else if first.entry?.isSome then
      if lines.any (·.indent < indent) then none
      else
        let heads (line : BlockLine) : Bool := line.indent = indent && line.item?.isNone
        let entries := (chunks heads lines).mapM fun (head, tail) => do
          let (key, text) ← head.entry?
          let value ← if endsLine text then block depth tail
            else if tail.any (·.indent = indent) then none
            else inlineValue? text tail
          return (key, value)
        entries.map .map
    else inlineValue? first.text below

/-- Line breaks are written in three ways. -/
def unifyBreaks : Bytes → Bytes
  | 13 :: 10 :: rest => 10 :: unifyBreaks rest
  | b :: rest => (if b = 13 then 10 else b) :: unifyBreaks rest
  | [] => []

def isAllowed (code : Nat) : Bool :=
  code = 9 || code = 10 || code = 13 || (32 ≤ code && code < 127) || code = 0x85
    || (0xA0 ≤ code && code ≤ 0xFFFD && code ≠ 0xFEFF) || 0x10000 ≤ code

def parse? (text : Bytes) : Option Yaml := do
  let text := Bytes.dropFront [0xEF, 0xBB, 0xBF] text
  if !isUtf8 text || !(codePoints text).all isAllowed then none
  let lines := firstDocument (← blockLines (Bytes.split 10 (unifyBreaks text)))
  block (lines.foldl (fun total line => total + line.text.length + 1) 1) lines

end Cb.Yaml
