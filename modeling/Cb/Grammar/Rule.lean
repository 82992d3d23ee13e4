import Cb.Reader.Basic
import Cb.Settings.Basic

/-! Grammar rules. A rule reads something and moves the reader, or fails; a failed rule has set the
reader back to where it took its own checkpoint. Rules that call each other count down, and
`exhausted` says that the count ran out. -/

namespace Cb

structure Env where
  source : Source
  settings : Settings

inductive Reply (α : Type) where
  | ok (value : α) (r : Reader)
  | fail (r : Reader)
  | exhausted

def Rule (α : Type) := Env → Reader → Reply α

namespace Rule

protected def pure {α : Type} (value : α) : Rule α := fun _ r => .ok value r

protected def bind {α β : Type} (rule : Rule α) (next : α → Rule β) : Rule β := fun env r =>
  match rule env r with
  | .ok value after => next value env after
  | .fail after => .fail after
  | .exhausted => .exhausted

instance : Monad Rule where
  pure := Rule.pure
  bind := Rule.bind

def exhausted {α : Type} : Rule α := fun _ _ => .exhausted

def orElse {α : Type} (rule other : Rule α) : Rule α := fun env r =>
  match rule env r with
  | .fail after => other env after
  | reply => reply

def optional {α : Type} (rule : Rule α) : Rule (Option α) := fun env r =>
  match rule env r with
  | .ok value after => .ok (some value) after
  | .fail after => .ok none after
  | .exhausted => .exhausted

def orReject {α : Type} (rule : Rule α) (c : Checkpoint) (reason : Reason) : Rule α := fun env r =>
  match rule env r with
  | .fail after => .fail (after.reject c reason)
  | reply => reply

def orRestore {α : Type} (rule : Rule α) (c : Checkpoint) : Rule α := fun env r =>
  match rule env r with
  | .fail after => .fail (after.restore c)
  | reply => reply

def reject {α : Type} (c : Checkpoint) (reason : Reason) : Rule α := fun _ r => .fail (r.reject c reason)

def fails {α : Type} (c : Checkpoint) : Rule α := fun _ r => .fail (r.restore c)

def failHere {α : Type} (reason : Reason) : Rule α := fun _ r => .fail (r.note reason)

def update (change : Reader → Reader) : Rule Unit := fun _ r => .ok () (change r)

def require (move : Source → Reader → Bool × Reader) : Rule Unit := fun env r =>
  match move env.source r with
  | (true, after) => .ok () after
  | (false, after) => .fail after

def tries (move : Source → Reader → Bool × Reader) : Rule Bool := fun env r =>
  let (moved, after) := move env.source r
  .ok moved after

def checkpoint : Rule Checkpoint := fun _ r => .ok r.checkpoint r

def position : Rule Position := fun _ r => .ok r.pos r

def scope : Rule Scope := fun _ r => .ok r.scope r

def setScope (scope : Scope) : Rule Unit := update fun r => { r with scope }

def peek : Rule Nat := fun env r => .ok (r.peek env.source) r

def advance : Rule Nat := fun env r => .ok (r.peek env.source) (r.advance env.source)

def skip : Rule Unit := fun env r => .ok () (r.skip env.source).2

def test (character : Char) : Rule Bool := tries fun source => Reader.test source character.toNat

def testText (text : Bytes) : Rule Bool := tries fun source => Reader.testText source text

def expect (character : Char) (c : Checkpoint) : Rule Unit :=
  require fun source => Reader.expect source character.toNat c

def restore (c : Checkpoint) : Rule Unit := update fun r => r.restore c

def word : Rule Bytes := fun env r =>
  let (found, after) := r.word env.source
  .ok found after

def restOfLine : Rule Bytes := fun env r =>
  let (found, after) := r.restOfLine env.source
  .ok found after

def atEnd : Rule Bool := fun env r => .ok (r.atEnd env.source) r

def isOn (feature : Feature) : Rule Bool := fun env r => .ok (env.settings.features feature) r

def scaling : Rule Scaling := fun env r =>
  .ok (if env.settings.features .shlScaling then .shift else .multiply) r

def sourceSize : Rule Nat := fun env r => .ok env.source.size r

def built {α : Type} (tree : Except BuildError α) (c : Checkpoint) : Rule α :=
  match tree with
  | .ok value => Rule.pure value
  | .error error => reject c (.build error)

def warn (warning : Warning) (pos : Position) (message : Bytes) : Rule Unit := fun env r =>
  if env.settings.warnings warning then .ok () (r.remark ⟨pos, warning.flag, message⟩) else .ok () r

/-- Reads a word of the language. A longer name that starts with it does not count. -/
def keyword (text : Bytes) (c : Checkpoint) : Rule Unit := do
  require fun source => Reader.expectText source text c
  if continuesWord (← peek) then fails c

def name (c : Checkpoint) (what : Bytes) : Rule Bytes := do
  let found := lower (← word)
  if found.isEmpty || isReserved found then reject c (.invalid what) else return found

def stars : Nat → Rule Nat
  | 0 => Rule.exhausted
  | limit + 1 => do
    if ← test '*' then
      skip
      return (← stars limit) + 1
    else return 0

def dataType : Rule Ty := do
  let c ← checkpoint
  let found ← word
  if found.isEmpty then reject c (.invalid "name") else
  match (← scope).findType? found with
  | none => reject c (.undefinedType (lower found))
  | some ty =>
    skip
    let depth ← stars ((← sourceSize) + 1)
    return ⟨ty.base, depth⟩

end Rule

end Cb
