import Cb.Text.Bytes

/-! Errors and warnings as the user sees them: a message, and where known the source line with a
caret under the column. -/

namespace Cb

inductive Severity where
  | error
  | warning
deriving DecidableEq, Repr

structure Cause where
  text : Bytes
  missingFile : Bool := false
deriving DecidableEq, Repr

structure Diagnostic where
  message : Bytes
  origin : Bytes := []
  source : Bytes := []
  column : Nat := 0
  severity : Severity := .error
  flag : Bytes := []
  cause : Option Cause := none
deriving DecidableEq, Repr

namespace Diagnostic

def because (message : Bytes) (cause : Cause) : Diagnostic :=
  { message := message ++ ": " ++ cause.text, cause := some cause }

def text (d : Diagnostic) : Bytes :=
  if d.origin.isEmpty then d.message
  else d.origin ++ ", column " ++ Bytes.ofNat (d.column + 1) ++ ": " ++ d.message

def label : Severity → Bytes
  | .error => "error:"
  | .warning => "warning:"

def headline (d : Diagnostic) : Bytes :=
  let note : Bytes := if d.flag.isEmpty then [] else " [" ++ d.flag ++ "]"
  label d.severity ++ " " ++ d.message ++ note ++ "\n"

/-- The headline, then place, source line and caret. A tab counts as one column, so it is shown as
a space. -/
def report (d : Diagnostic) : Bytes :=
  if d.origin.isEmpty then d.headline
  else d.headline
    ++ "    at " ++ d.origin ++ ", column " ++ Bytes.ofNat (d.column + 1) ++ "\n"
    ++ "    " ++ Bytes.replaceByte 9 32 d.source ++ "\n"
    ++ "    " ++ Bytes.spaces d.column ++ "^\n"

def asWarning (d : Diagnostic) : Diagnostic := { d with severity := .warning }

end Diagnostic

inductive Problem where
  | diagnostic (d : Diagnostic)
  | plain (message : Bytes)
  | within (context : Bytes) (inner : Problem)
deriving Repr

namespace Problem

def text : Problem → Bytes
  | .diagnostic d => d.text
  | .plain message => message
  | .within context inner => context ++ ": " ++ inner.text

def diagnostic? : Problem → Option Diagnostic
  | .diagnostic d => some d
  | .plain _ => none
  | .within _ inner => inner.diagnostic?

/-- A diagnostic inside is reported alone, without its context. -/
def report (problem : Problem) : Bytes :=
  match problem.diagnostic? with
  | some d => d.report
  | none => "error: " ++ problem.text ++ "\n"

end Problem

end Cb
