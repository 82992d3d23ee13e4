import Cb.Asm.Instr

/-! Assembly listings: lines with their indentation, and the text they are written as. -/

namespace Cb

inductive Item where
  | instr (i : Instr)
  | label (l : Label)
  | comment (text : Bytes)
  | procedure (name : Bytes)
  | endProcedure (name : Bytes)
  | verbatim (text : Bytes)
  | blank
deriving DecidableEq, Repr

structure Line where
  indent : Nat
  item : Item
deriving DecidableEq, Repr

namespace Line

def text (line : Line) : Bytes :=
  let indented (text : Bytes) : Bytes := Bytes.spaces (4 * line.indent) ++ text
  match line.item with
  | .instr i => indented i.text
  | .label l => indented (l.text ++ ":")
  | .comment text => indented ("; " ++ text)
  | .procedure name => indented (name ++ " proc")
  | .endProcedure name => indented ("endp " ++ name)
  | .verbatim text => indented text
  | .blank => []

end Line

structure Listing where
  lines : List Line := []
  indent : Nat := 0
deriving DecidableEq, Repr

namespace Listing

def add (listing : Listing) (item : Item) : Listing :=
  { listing with lines := listing.lines ++ [⟨listing.indent, item⟩] }

def line (listing : Listing) (text : Bytes) : Listing := listing.add (.verbatim text)

def comment (listing : Listing) (text : Bytes) : Listing := listing.add (.comment text)

def blank (listing : Listing) : Listing := listing.add .blank

def indented (listing : Listing) : Listing := { listing with indent := listing.indent + 1 }

def dedented (listing : Listing) : Listing := { listing with indent := listing.indent - 1 }

def texts (listing : Listing) : List Bytes := listing.lines.map Line.text

def text (listing : Listing) : Bytes := Bytes.unlines listing.texts

end Listing

end Cb
