/-! Places in the line stream that the reader works on, both coordinates counted from zero. -/

namespace Cb

structure Position where
  line : Nat
  column : Nat
deriving DecidableEq, Repr

namespace Position

def start : Position := ⟨0, 0⟩

def before (a b : Position) : Bool :=
  if a.line = b.line then a.column < b.column else a.line < b.line

end Position

end Cb
