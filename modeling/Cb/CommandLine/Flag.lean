import Cb.Text.Quoted

/-! Flags of a command line: named values with a short form, and groups of switches that come in
pairs, one that turns a thing on and one that turns it off. -/

namespace Cb

inductive FlagError where
  | notBoolean (given : Bytes)
  | emptyName
  | unknown (name : Bytes)
  | unknownShort (letter : Bytes)
  | needsArgument (flag : Bytes)
deriving DecidableEq, Repr

def FlagError.message : FlagError → Bytes
  | .notBoolean given =>
    "invalid boolean value '" ++ given ++ "': strconv.ParseBool: parsing " ++ quoted given ++ ": invalid syntax"
  | .emptyName => "empty flag name"
  | .unknown name => "unknown flag: --" ++ name
  | .unknownShort letter => "unknown shorthand flag: -" ++ letter
  | .needsArgument flag => "flag needs an argument: " ++ flag

def boolean? (text : Bytes) : Option Bool :=
  let among (names : List String) : Bool := names.any (utf8 · = text)
  if among ["1", "t", "T", "true", "TRUE", "True"] then some true
  else if among ["0", "f", "F", "false", "FALSE", "False"] then some false
  else none

inductive FlagValue where
  | text (value : Bytes)
  | switch (on : Bool)
  | list (items : List Bytes)
deriving DecidableEq, Repr

namespace FlagValue

def isSwitch : FlagValue → Bool
  | .switch _ => true
  | _ => false

def render : FlagValue → Bytes
  | .text value => value
  | .switch on => if on then "true" else "false"
  | .list items => Bytes.join ", " items

/-- A text is replaced, a list grows at its end, a switch without an argument is turned on. -/
def take (given : Bytes) : FlagValue → Except FlagError FlagValue
  | .text _ => .ok (.text given)
  | .list items => .ok (.list (items ++ [given]))
  | .switch _ =>
    if given.isEmpty then .ok (.switch true)
    else match boolean? given with
      | some on => .ok (.switch on)
      | none => .error (.notBoolean given)

end FlagValue

structure Flag where
  name : Bytes
  short : Bytes := []
  usage : Bytes := []
  expects : Bytes := []
  initial : FlagValue
  value : FlagValue := initial
deriving Repr

/-- One thing that `-<lead><name>` turns on and `-<lead>no-<name>` turns off. -/
structure GroupEntry where
  name : Bytes
  lead : Bytes
  usage : Bytes
  default : Bool
deriving DecidableEq, Repr

namespace GroupEntry

def onName (entry : GroupEntry) : Bytes := entry.lead ++ entry.name

def offName (entry : GroupEntry) : Bytes := entry.lead ++ "no-" ++ entry.name

def flags (entry : GroupEntry) : List Flag :=
  [{ name := entry.onName, usage := entry.usage, initial := .switch false },
   { name := entry.offName, usage := "Disable '" ++ entry.name ++ "'", initial := .switch false }]

end GroupEntry

structure FlagGroup where
  name : Bytes
  description : Bytes
  kind : Bytes
  header : Bytes
  entries : List GroupEntry
deriving Repr

def FlagGroup.flags (group : FlagGroup) : List Flag := group.entries.flatMap GroupEntry.flags

inductive FlagClash where
  | emptyName
  | name (taken : Bytes)
  | short (taken : Bytes)
deriving DecidableEq, Repr

def FlagClash.message : FlagClash → Bytes
  | .emptyName => "flag name cannot be empty"
  | .name taken => "flag redefined: " ++ taken
  | .short taken => "shorthand flag redefined: " ++ taken

structure FlagSet where
  flags : List Flag := []
  groups : List FlagGroup := []
  args : List Bytes := []
deriving Repr

namespace FlagSet

def find? (set : FlagSet) (name : Bytes) : Option Flag := set.flags.find? (·.name = name)

/-- The oldest flag keeps a short form that was asked for twice. -/
def findShort? (set : FlagSet) (short : Bytes) : Option Flag := set.flags.find? (·.short = short)

def value? (set : FlagSet) (name : Bytes) : Option FlagValue := (set.find? name).map (·.value)

def isOn (set : FlagSet) (name : Bytes) : Bool := set.value? name = some (.switch true)

def clash? (set : FlagSet) (flag : Flag) : Option FlagClash :=
  if flag.name.isEmpty then some .emptyName
  else if (set.find? flag.name).isSome then some (.name flag.name)
  else if !flag.short.isEmpty && (set.findShort? flag.short).isSome then some (.short flag.short)
  else none

/-- Adds a flag. One whose short form is taken is still known by its name. -/
def register (set : FlagSet) (flag : Flag) : FlagSet × Option FlagClash :=
  let extended : FlagSet := { set with flags := set.flags ++ [flag] }
  match set.clash? flag with
  | none => (extended, none)
  | some (.short taken) => (extended, some (.short taken))
  | some clash => (set, some clash)

def registerAll (set : FlagSet) : List Flag → FlagSet × Option FlagClash
  | [] => (set, none)
  | flag :: rest =>
    match set.register flag with
    | (extended, none) => extended.registerAll rest
    | clashing => clashing

def addGroup (set : FlagSet) (group : FlagGroup) : FlagSet × Option FlagClash :=
  match set.registerAll group.flags with
  | (extended, none) => ({ extended with groups := extended.groups ++ [group] }, none)
  | clashing => clashing

def isGrouped (set : FlagSet) (flag : Flag) : Bool :=
  set.groups.any fun group => group.entries.any fun entry => flag.name = entry.onName || flag.name = entry.offName

def options (set : FlagSet) : List Flag :=
  (set.flags.filter fun flag => !set.isGrouped flag).mergeSort fun a b => !Bytes.lessThan b.name a.name

end FlagSet

end Cb
