import Cb.CommandLine.Flag

/-! Reading of an argument list. Long names follow two dashes or one, with the value after `=` or in
the next argument; a short form may have its value attached. -/

namespace Cb

inductive ArgReading where
  | positional
  | stop
  | give (name value : Bytes)
  /-- The next argument is the value; `written` is how the flag was spelled. -/
  | giveNext (name written : Bytes)
  | fault (error : FlagError)
deriving DecidableEq, Repr

namespace FlagSet

def readNamed (flag : Flag) (dashes : Bytes) (value : Option Bytes) : ArgReading :=
  match value with
  | some given => .give flag.name given
  | none => if flag.value.isSwitch then .give flag.name [] else .giveNext flag.name (dashes ++ flag.name)

def nameAndValue (body : Bytes) : Bytes × Option Bytes :=
  match Bytes.cut? (byte '=') body with
  | some (name, value) => (name, some value)
  | none => (body, none)

def readLong (set : FlagSet) (body : Bytes) : ArgReading :=
  let (name, value) := nameAndValue body
  if name.isEmpty then .fault .emptyName
  else match set.find? name with
    | some flag => readNamed flag "--" value
    | none => .fault (.unknown name)

def readAttached (set : FlagSet) (letter : UInt8) (attached : Bytes) : ArgReading :=
  match set.findShort? [letter] with
  | none => .fault (.unknownShort [letter])
  | some flag =>
    if flag.value.isSwitch then .give flag.name []
    else if attached.isEmpty then .giveNext flag.name ("-" ++ [letter])
    else .give flag.name attached

/-- The argument `-<body>`: a full name wins over a short form. -/
def readShort (set : FlagSet) (body : Bytes) : ArgReading :=
  let (name, value) := nameAndValue body
  match set.find? name, body with
  | some flag, _ => readNamed flag "-" value
  | none, letter :: attached => set.readAttached letter attached
  | none, [] => .positional

def read (set : FlagSet) (arg : Bytes) : ArgReading :=
  match arg with
  | dash :: second :: rest =>
    if dash ≠ byte '-' then .positional
    else if second ≠ byte '-' then set.readShort (second :: rest)
    else if rest.isEmpty then .stop
    else set.readLong rest
  | _ => .positional

def replace (set : FlagSet) (name : Bytes) (value : FlagValue) : FlagSet :=
  { set with flags := set.flags.map fun flag => if flag.name = name then { flag with value } else flag }

def give (set : FlagSet) (name given : Bytes) : Except FlagError FlagSet :=
  match set.value? name with
  | none => .error (.unknown name)
  | some value => (value.take given).map (set.replace name)

def parseFrom (set : FlagSet) : List Bytes → FlagSet × Option FlagError
  | [] => (set, none)
  | arg :: rest =>
    match set.read arg with
    | .positional => parseFrom { set with args := set.args ++ [arg] } rest
    | .stop => ({ set with args := set.args ++ rest }, none)
    | .fault error => (set, some error)
    | .give name value =>
      match set.give name value with
      | .ok changed => changed.parseFrom rest
      | .error error => (set, some error)
    | .giveNext name written =>
      match rest with
      | [] => (set, some (.needsArgument written))
      | value :: later =>
        match set.give name value with
        | .ok changed => changed.parseFrom later
        | .error error => (set, some error)

def parse (set : FlagSet) (args : List Bytes) : FlagSet × Option FlagError :=
  { set with args := [] }.parseFrom args

end FlagSet

end Cb
