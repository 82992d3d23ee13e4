import Cb.Text.Blank

/-! Settings of one run: the features and warnings that are on, include directories, predefined
macros and the output path. -/

namespace Cb

inductive Feature where
  | asm
  | arrays
  | asmComments
  | shlScaling
  | cleanupOnBreak
deriving DecidableEq, Repr

namespace Feature

def all : List Feature := [.asm, .arrays, .asmComments, .shlScaling, .cleanupOnBreak]

def name : Feature → Bytes
  | .asm => "asm"
  | .arrays => "arrays"
  | .asmComments => "asm-comments"
  | .shlScaling => "shl-scaling"
  | .cleanupOnBreak => "cleanup-on-break"

def description : Feature → Bytes
  | .asm => "Allow `__asm \x7b ... \x7d` blocks for inline assembly."
  | .arrays => "Allow fixed-size stack arrays `type name[N];`."
  | .asmComments => "Echo each source statement as a comment in the output."
  | .shlScaling => "Scale pointer arithmetic with `shl` when the element size is a power of two."
  | .cleanupOnBreak => "Pop loop-body locals before `break` and `continue` jump."

def default : Feature → Bool
  | .shlScaling => false
  | _ => true

def find? (name : Bytes) : Option Feature := all.find? (·.name = name)

def ofIndex? (index : Int) : Option Feature := if index < 0 then none else all[index.toNat]?

end Feature

inductive Warning where
  | unreachableCode
  | unusedFunction
  | truncation
  | extra
deriving DecidableEq, Repr

namespace Warning

def all : List Warning := [.unreachableCode, .unusedFunction, .truncation, .extra]

def name : Warning → Bytes
  | .unreachableCode => "unreachable-code"
  | .unusedFunction => "unused-function"
  | .truncation => "truncation"
  | .extra => "extra"

def description : Warning → Bytes
  | .unreachableCode => "Warn about statements after a `return` in the same block."
  | .unusedFunction => "Warn about functions that are never called from `main`."
  | .truncation => "Warn when an explicit cast changes the value of a constant."
  | .extra => "Enable extra miscellaneous warnings, such as unknown pragma flags."

def default : Warning → Bool
  | .unusedFunction => false
  | _ => true

def find? (name : Bytes) : Option Warning := all.find? (·.name = name)

def ofIndex? (index : Int) : Option Warning := if index < 0 then none else all[index.toNat]?

def flag (w : Warning) : Bytes := "-W" ++ w.name

end Warning

/-- Names with values, the first mention of a name decides its place. -/
abbrev Macros := List (Bytes × Bytes)

namespace Macros

def find? (macros : Macros) (name : Bytes) : Option Bytes := (List.find? (·.1 = name) macros).map (·.2)

def has (macros : Macros) (name : Bytes) : Bool := macros.any (·.1 = name)

def set (name value : Bytes) : Macros → Macros
  | [] => [(name, value)]
  | entry :: rest => if entry.1 = name then (name, value) :: rest else entry :: set name value rest

def erase (macros : Macros) (name : Bytes) : Macros := macros.filter (·.1 ≠ name)

end Macros

structure Settings where
  features : Feature → Bool := Feature.default
  warnings : Warning → Bool := Warning.default
  includeDirs : List Bytes := []
  defines : Macros := []
  output : Bytes := []

/-- A flag of the form `-W<name>`, `-Wno-<name>`, `-F<name>` or `-Fno-<name>`. -/
inductive Toggle where
  | warning (w : Warning) (on : Bool)
  | allWarnings (on : Bool)
  | feature (f : Feature) (on : Bool)
deriving DecidableEq, Repr

namespace Toggle

/-- The leading dash may be left out. -/
def parse? (flag : Bytes) : Option Toggle :=
  match Bytes.dropFront "-" flag with
  | kind :: rest =>
    let on := (Bytes.after? "no-" rest).isNone
    let name := Bytes.dropFront "no-" rest
    if kind = byte 'W' then
      if name = "all" then some (.allWarnings on) else (Warning.find? name).map (.warning · on)
    else if kind = byte 'F' then (Feature.find? name).map (.feature · on)
    else none
  | [] => none

end Toggle

namespace Settings

def setFeature (s : Settings) (f : Feature) (on : Bool) : Settings :=
  { s with features := fun g => if g = f then on else s.features g }

def setWarning (s : Settings) (w : Warning) (on : Bool) : Settings :=
  { s with warnings := fun v => if v = w then on else s.warnings v }

def apply (s : Settings) : Toggle → Settings
  | .warning w on => s.setWarning w on
  | .allWarnings on => { s with warnings := fun _ => on }
  | .feature f on => s.setFeature f on

def applyFlags (s : Settings) : List Bytes → Settings × List Bytes
  | [] => (s, [])
  | flag :: rest =>
    match Toggle.parse? flag with
    | some toggle => (s.apply toggle).applyFlags rest
    | none =>
      let (final, unknown) := s.applyFlags rest
      (final, flag :: unknown)

def applyLine (s : Settings) (line : Bytes) : Settings × List Bytes := s.applyFlags (words line)

/-- Records a predefined macro `name` or `name=value`. Without a value it is defined as 1. -/
def define (s : Settings) (definition : Bytes) : Settings :=
  let (name, value) := (Bytes.cut? (byte '=') definition).getD (definition, [])
  { s with defines := s.defines.set (trim name) (if value.isEmpty then "1" else value) }

end Settings

end Cb
