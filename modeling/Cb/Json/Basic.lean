import Cb.Text.Quoted

/-! JSON values and their indented text. Texts are byte strings; what is no character in them is
written as U+FFFD. -/

namespace Cb

inductive Json where
  | null
  | bool (value : Bool)
  | number (digits : Bytes)
  | string (text : Bytes)
  | array (items : List Json)
  | object (members : List (Bytes × Json))
deriving Repr

namespace Json

def ofInt (value : Int) : Json := .number (Bytes.ofInt value)

def ofTexts (texts : List Bytes) : Json := .array (texts.map .string)

/-- One character inside a string. Marks that mean something to a browser are escaped as well. -/
def escape (unit : Scalar) : Bytes :=
  let code := unit.code
  if code = 34 then "\\\""
  else if code = 92 then "\\\\"
  else if code = 8 then "\\b"
  else if code = 12 then "\\f"
  else if code = 10 then "\\n"
  else if code = 13 then "\\r"
  else if code = 9 then "\\t"
  else if code < 32 || code = 60 || code = 62 || code = 38 || code = 0x2028 || code = 0x2029
  then "\\u" ++ paddedHex 4 code
  else if code = Scalar.replacement && unit.bytes.length = 1 then "\\ufffd"
  else unit.bytes

def stringText (text : Bytes) : Bytes := "\"" ++ (scalars text).flatMap escape ++ "\""

def newLine (level : Nat) : Bytes := 10 :: Bytes.spaces (2 * level)

mutual

def render (level : Nat) : Json → Bytes
  | .null => "null"
  | .bool value => if value then "true" else "false"
  | .number digits => digits
  | .string text => stringText text
  | .array [] => "[]"
  | .array (item :: items) =>
    "[" ++ newLine (level + 1) ++ render (level + 1) item ++ renderItems (level + 1) items ++ newLine level ++ "]"
  | .object [] => "\x7b\x7d"
  | .object (member :: members) =>
    "\x7b" ++ newLine (level + 1) ++ renderMember (level + 1) member ++ renderMembers (level + 1) members
      ++ newLine level ++ "\x7d"
termination_by structural value => value

def renderMember (level : Nat) : Bytes × Json → Bytes
  | (key, value) => stringText key ++ ": " ++ render level value
termination_by structural member => member

def renderItems (level : Nat) : List Json → Bytes
  | [] => []
  | item :: items => "," ++ newLine level ++ render level item ++ renderItems level items
termination_by structural items => items

def renderMembers (level : Nat) : List (Bytes × Json) → Bytes
  | [] => []
  | member :: members => "," ++ newLine level ++ renderMember level member ++ renderMembers level members
termination_by structural members => members

end

def text (value : Json) : Bytes := render 0 value

end Json

end Cb
