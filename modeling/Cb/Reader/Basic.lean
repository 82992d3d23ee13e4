import Cb.Diagnostic
import Cb.Reader.Reason
import Cb.Word

/-! A reader moves over the characters of the source lines and can be set back to a checkpoint. It
remembers the failure that got furthest. A character is the code of one byte; the end of every line
reads as a line break, and past the last line every character is `endOfFile`. -/

namespace Cb

structure Source where
  lines : Array Bytes
  origins : Array Bytes
  size : Nat := lines.toList.foldr (fun line rest => line.length + 1 + rest) 0
  size_eq : size = lines.toList.foldr (fun line rest => line.length + 1 + rest) 0 := by rfl

structure Failure where
  pos : Position
  reason : Reason
deriving DecidableEq, Repr

structure Remark where
  pos : Position
  flag : Bytes
  message : Bytes
deriving DecidableEq, Repr

structure Reader where
  pos : Position := .start
  scope : Scope := {}
  failure : Option Failure := none
  /-- The remarks made so far, in order. They stay when the reader is set back. -/
  remarks : List Remark := []
deriving Repr

structure Checkpoint where
  pos : Position
  sizes : ScopeSizes
deriving DecidableEq, Repr

/-- What is reported about a position. Past the end of the source it is the end of the last line. -/
def Source.diagnostic (source : Source) (pos : Position) (message : Bytes) : Diagnostic :=
  match source.lines[pos.line]?, source.lines.back? with
  | some line, _ =>
    { message, source := line, origin := source.origins[pos.line]?.getD [], column := pos.column }
  | none, some last =>
    { message, source := last, origin := source.origins[source.lines.size - 1]?.getD []
      column := last.length }
  | none, none => { message, column := pos.column }

namespace Reader

def atEnd (source : Source) (r : Reader) : Bool := source.lines.size ≤ r.pos.line

def peek (source : Source) (r : Reader) : Nat :=
  match source.lines[r.pos.line]? with
  | none => endOfFile
  | some text => match text[r.pos.column]? with
    | none => endOfLine
    | some b => b.toNat

def nextLine (r : Reader) : Reader := { r with pos := ⟨r.pos.line + 1, 0⟩ }

def nextColumn (r : Reader) : Reader := { r with pos := ⟨r.pos.line, r.pos.column + 1⟩ }

def advance (source : Source) (r : Reader) : Reader :=
  if r.peek source = endOfFile then r
  else if r.peek source = endOfLine then r.nextLine
  else r.nextColumn

def isSkipped (code : Nat) : Bool := code == 32 || code == 9 || code == 13 || code == endOfLine

def skipUpTo (source : Source) : Nat → Reader → Nat × Reader
  | 0, r => (0, r)
  | limit + 1, r =>
    if isSkipped (r.peek source) then
      let (count, after) := skipUpTo source limit (r.advance source)
      (count + 1, after)
    else (0, r)

def skip (source : Source) (r : Reader) : Nat × Reader := skipUpTo source source.size r

def test (source : Source) (code : Nat) (r : Reader) : Bool × Reader :=
  if r.peek source = code then (true, r.advance source) else (false, r)

def checkpoint (r : Reader) : Checkpoint := ⟨r.pos, r.scope.sizes⟩

/-- Remembers a failure here, unless an earlier one got further. -/
def note (r : Reader) (reason : Reason) : Reader :=
  match r.failure with
  | none => { r with failure := some ⟨r.pos, reason⟩ }
  | some known => if r.pos.before known.pos then r else { r with failure := some ⟨r.pos, reason⟩ }

def restoreScope (r : Reader) (c : Checkpoint) : Reader := { r with scope := r.scope.truncate c.sizes }

/-- Sets the reader back. It never moves forward, and a scope never grows. -/
def restore (r : Reader) (c : Checkpoint) : Reader :=
  { r with pos := if c.pos.before r.pos then c.pos else r.pos, scope := r.scope.truncate c.sizes }

def reject (r : Reader) (c : Checkpoint) (reason : Reason) : Reader := (r.note reason).restore c

def testCodes (source : Source) : List Nat → Reader → Bool × Reader
  | [], r => (true, r)
  | code :: rest, r =>
    match r.test source code with
    | (true, after) => testCodes source rest after
    | (false, after) => (false, after)

def testText (source : Source) (text : Bytes) (r : Reader) : Bool × Reader :=
  match testCodes source (codePoints text) r with
  | (true, after) => (true, after)
  | (false, after) => (false, after.restore r.checkpoint)

def expect (source : Source) (code : Nat) (c : Checkpoint) (r : Reader) : Bool × Reader :=
  if r.peek source = code then (true, r.advance source)
  else (false, r.reject c (.expected code (r.peek source)))

def expectCodes (source : Source) (c : Checkpoint) : List Nat → Reader → Bool × Reader
  | [], r => (true, r)
  | code :: rest, r =>
    match r.expect source code c with
    | (true, after) => expectCodes source c rest after
    | (false, after) => (false, after)

def expectText (source : Source) (text : Bytes) (c : Checkpoint) (r : Reader) : Bool × Reader :=
  expectCodes source c (codePoints text) r

def expectBlanks (source : Source) (c : Checkpoint) (r : Reader) : Bool × Reader :=
  match r.skip source with
  | (0, after) => (false, after.reject c (.expectedBlank (after.peek source)))
  | (_, after) => (true, after)

def restOfLine (source : Source) (r : Reader) : Bytes × Reader :=
  match source.lines[r.pos.line]? with
  | none => ([], r)
  | some line => (line.drop r.pos.column, r.nextLine)

def leadingWord (text : Bytes) : Bytes :=
  match text with
  | [] => []
  | first :: _ => if startsWord first.toNat then text.takeWhile (continuesWord ·.toNat) else []

def word (source : Source) (r : Reader) : Bytes × Reader :=
  let found := leadingWord ((source.lines[r.pos.line]?.getD []).drop r.pos.column)
  (found, { r with pos := ⟨r.pos.line, r.pos.column + found.length⟩ })

def failure? (source : Source) (r : Reader) : Option Diagnostic :=
  r.failure.map fun failure => source.diagnostic failure.pos failure.reason.message

def remark (r : Reader) (remark : Remark) : Reader :=
  if r.remarks.any fun known => known.pos = remark.pos && known.message = remark.message then r
  else { r with remarks := r.remarks ++ [remark] }

end Reader

def Source.warning (source : Source) (remark : Remark) : Diagnostic :=
  { source.diagnostic remark.pos remark.message with severity := .warning, flag := remark.flag }

end Cb
