import Cb.Scenario

/-! A reader of the headings and code fences of a Markdown document, in order. Everything else is prose. -/

namespace Cb

namespace Markdown

def isSpace (b : UInt8) : Bool := (9 ≤ b && b ≤ 13) || b = 32

def trimLeft (text : Bytes) : Bytes := text.dropWhile isSpace

def trimRight (text : Bytes) : Bytes := (text.reverse.dropWhile isSpace).reverse

def shallow? (line : Bytes) : Option Bytes :=
  let text := line.dropWhile (· = 32)
  if 3 < line.length - text.length || text.head? = some 9 then none else some text

def withoutClosing (text : Bytes) : Bytes :=
  let front := (text.reverse.dropWhile (· = byte '#')).reverse
  if front.isEmpty || front.getLast?.any isSpace then trimRight front else text

def heading? (line : Bytes) : Option Bytes := do
  let text ← shallow? line
  let rest := text.dropWhile (· = byte '#')
  let level := text.length - rest.length
  if level = 0 || 6 < level || !rest.head?.all isSpace then none
  return withoutClosing (trimRight (trimLeft rest))

structure FenceMark where
  mark : UInt8
  count : Nat
  indent : Nat
deriving DecidableEq, Repr

def opening? (line : Bytes) : Option (FenceMark × Bytes) := do
  let text ← shallow? line
  let mark ← text.head?
  let rest := text.dropWhile (· = mark)
  let count := text.length - rest.length
  let info := trimRight (trimLeft rest)
  if !(mark = byte '~' || (mark = byte '`' && !info.contains mark)) || count < 3 then none
  return (⟨mark, count, line.length - text.length⟩, info.takeWhile (· ≠ 32))

def FenceMark.isClosedBy (fence : FenceMark) (line : Bytes) : Bool :=
  (shallow? line).any fun text =>
    let rest := text.dropWhile (· = fence.mark)
    fence.count ≤ text.length - rest.length && rest.all isSpace

def FenceMark.dedent (fence : FenceMark) (line : Bytes) : Bytes :=
  let text := line.dropWhile (· = 32)
  if fence.indent ≤ line.length - text.length then line.drop fence.indent
  else if text.all isSpace then line
  else text

structure OpenFence where
  mark : FenceMark
  label : Bytes
  lines : List Segment

def OpenFence.block (fence : OpenFence) : MarkdownBlock := .fence fence.label fence.lines.reverse

def blocksFrom (start : Nat) : Option OpenFence → List Bytes → List MarkdownBlock
  | none, [] => []
  | some fence, [] => [fence.block]
  | some fence, text :: rest =>
    let next := start + text.length + 1
    if fence.mark.isClosedBy text then fence.block :: blocksFrom next none rest
    else
      let line : Segment := ⟨start, fence.mark.dedent text ++ [10]⟩
      blocksFrom next (some { fence with lines := line :: fence.lines }) rest
  | none, text :: rest =>
    let next := start + text.length + 1
    match opening? text with
    | some (mark, label) => blocksFrom next (some ⟨mark, label, []⟩) rest
    | none =>
      match heading? text with
      | some title => .heading [title] [⟨start, text⟩] :: blocksFrom next none rest
      | none => blocksFrom next none rest

def blocks (document : Bytes) : List MarkdownBlock := blocksFrom 0 none (Bytes.lines document)

end Markdown

end Cb
