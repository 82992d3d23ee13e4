import Cb.Node
import Cb.Signature
import Cb.Text.Blank

/-! Functions and programs. -/

namespace Cb

structure Function extends Signature where
  body : Option Stmt := none
  calls : List Bytes := []
  pos : Position := .start
deriving Repr

namespace Function

def isImplemented (f : Function) : Bool := f.body.isSome

def text (f : Function) : Bytes :=
  let params := f.params.map fun param => trim (param.ty.text ++ " " ++ param.name)
  let ending : Bytes := if f.isImplemented then " \x7b ... \x7d" else ";"
  "Function: " ++ f.returns.text ++ " " ++ f.name ++ "(" ++ Bytes.join ", " params ++ ")" ++ ending

end Function

/-- Functions in the order of their first mention. -/
structure Program where
  functions : List Function
deriving Repr

def Program.find? (program : Program) (name : Bytes) : Option Function :=
  program.functions.find? (·.name = name)

end Cb
