import Cb.Json.Reader
import Cb.Text.LowerCase

/-! Golden records: what compiling a source gave, kept as JSON to compare later runs with. -/

namespace Cb

structure Golden where
  hash : Bytes := []
  args : List Bytes := []
  exitCode : Int := 0
  asm : List Bytes := []
  stderr : List Bytes := []
deriving DecidableEq, Repr

inductive Mismatch where
  | exitCode
  | assembly
  | diagnostics
deriving DecidableEq, Repr

def Mismatch.title : Mismatch → Bytes
  | .exitCode => "Exit Code mismatch"
  | .assembly => "Assembly mismatch"
  | .diagnostics => "Diagnostics mismatch"

namespace Golden

def toJson (golden : Golden) : Json :=
  let list (key : String) (texts : List Bytes) : List (Bytes × Json) :=
    if texts.isEmpty then [] else [(utf8 key, .ofTexts texts)]
  .object ([(utf8 "hash", .string golden.hash)] ++ list "args" golden.args
    ++ [(utf8 "exitCode", .ofInt golden.exitCode)] ++ list "asm" golden.asm ++ list "stderr" golden.stderr)

def text (golden : Golden) : Bytes := golden.toJson.text

def integer? (digits : Bytes) : Option Int :=
  let negative := digits.head? = some (byte '-')
  let rest := if negative then digits.drop 1 else digits
  let value : Int := if negative then -(decimalOf rest : Int) else decimalOf rest
  if !rest.all isDecimal || value < -(wordLimit : Int) || wordLimit ≤ value then none else some value

def item? : Json → Option Bytes
  | .string text => some text
  | .null => some []
  | _ => none

def list? : Json → Option (List Bytes)
  | .array items => items.mapM item?
  | .null => some []
  | _ => none

/-- Takes over one member; nothing at all leaves a text or number as it is, and members with other
names say nothing. Names are compared without regard to case. -/
def setMember (golden : Golden) (key : Bytes) (value : Json) : Option Golden :=
  let name := lower key
  if name = "hash" then
    match value with
    | .string text => some { golden with hash := text }
    | .null => some golden
    | _ => none
  else if name = "exitcode" then
    match value with
    | .number digits => (integer? digits).map fun exitCode => { golden with exitCode }
    | .null => some golden
    | _ => none
  else if name = "args" then (list? value).map fun args => { golden with args }
  else if name = "asm" then (list? value).map fun asm => { golden with asm }
  else if name = "stderr" then (list? value).map fun stderr => { golden with stderr }
  else some golden

def ofJson? : Json → Option Golden
  | .object members => members.foldlM (fun golden (key, value) => golden.setMember key value) {}
  | .null => some {}
  | _ => none

def parse? (content : Bytes) : Option Golden := (Json.parse? content).bind ofJson?

def relevant (ignored : List Bytes) (lines : List Bytes) : List Bytes :=
  lines.filter fun line => !ignored.any fun part => !part.isEmpty && Bytes.holds part line

def mismatches (ignored : List Bytes) (want got : Golden) : List Mismatch :=
  (if want.exitCode = got.exitCode then [] else [.exitCode])
    ++ (if relevant ignored want.asm = relevant ignored got.asm then [] else [.assembly])
    ++ (if relevant ignored want.stderr = relevant ignored got.stderr then [] else [.diagnostics])

end Golden

end Cb
