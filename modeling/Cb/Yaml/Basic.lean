import Cb.Text.Blank

/-! Values of YAML documents. A scalar is kept as text with its style, since a plain `true` is a
truth value and a quoted one is not. -/

namespace Cb

structure YamlScalar where
  text : Bytes
  plain : Bool
deriving DecidableEq, Repr

inductive Yaml where
  | scalar (value : YamlScalar)
  | list (items : List Yaml)
  | map (entries : List (YamlScalar × Yaml))
deriving Repr

namespace YamlScalar

def none : YamlScalar := ⟨[], true⟩

def isOneOf (text : Bytes) (names : List String) : Bool := names.any (utf8 · = text)

def isNull (value : YamlScalar) : Bool :=
  value.plain && isOneOf value.text ["", "~", "null", "Null", "NULL"]

def truth? (value : YamlScalar) : Option Bool :=
  if value.plain && isOneOf value.text ["true", "True", "TRUE"] then some true
  else if value.plain && isOneOf value.text ["false", "False", "FALSE"] then some false
  else if isOneOf value.text ["y", "Y", "yes", "on"] then some true
  else if isOneOf value.text ["n", "N", "no", "off"] then some false
  else Option.none

end YamlScalar

namespace Yaml

def null : Yaml := .scalar .none

/-- The entries of a map in which no key stands twice; nothing at all is an empty map. -/
def entries? : Yaml → Option (List (YamlScalar × Yaml))
  | .map entries => if (entries.map (·.1.text)).Nodup then some entries else none
  | .scalar value => if value.isNull then some [] else none
  | .list _ => none

def items? : Yaml → Option (List Yaml)
  | .list items => some items
  | .scalar value => if value.isNull then some [] else none
  | .map _ => none

def text? : Yaml → Option (Option Bytes)
  | .scalar value => some (if value.isNull then none else some value.text)
  | _ => none

def truth? : Yaml → Option Bool
  | .scalar value => if value.isNull then some false else value.truth?
  | _ => none

end Yaml

end Cb
