import Cb.Ty

/-! What callers know of a function. -/

namespace Cb

/-- The name is empty where a declaration leaves it out. -/
structure Param where
  name : Bytes
  ty : Ty
deriving DecidableEq, Repr

structure Signature where
  name : Bytes
  returns : Ty
  params : List Param
deriving DecidableEq, Repr

namespace Signature

def paramTypes (f : Signature) : List Ty := f.params.map (·.ty)

def paramBytes (f : Signature) : Nat := f.params.foldr (fun param rest => param.ty.paddedSize + rest) 0

end Signature

end Cb
