import Cb.Expr.Basic

/-! Statement trees. Cleanup counts are bytes of locals that a statement gives back to the stack. -/

namespace Cb

structure ArrayStorage where
  length : Int
  reserved : Int
  offset : Int
deriving DecidableEq, Repr

/-- A local variable. An array is a pointer variable with storage of its own. -/
structure Declaration where
  name : Bytes
  ty : Ty
  init : Option Expr := none
  offset : Int
  array : Option ArrayStorage := none
deriving Repr

inductive Stmt where
  | empty
  | breakLoop (pos : Position) (cleanup : Int)
  | continueLoop (pos : Position) (cleanup : Int)
  | assembly (pos : Position) (lines : List Bytes)
  | branch (pos : Position) (condition : Option Expr) (yes : Stmt) (no : Option Stmt)
  | forLoop (pos : Position) (init : Option Stmt) (condition post : Option Expr) (body : Stmt) (cleanup : Int)
  | whileLoop (pos : Position) (condition : Option Expr) (body : Stmt)
  | ret (pos : Position) (value : Option Expr) (cleanup : Int)
  | declare (pos : Position) (entry : Declaration)
  | block (pos : Position) (body : List Stmt) (cleanup : Int)
  | evaluate (pos : Position) (e : Expr)
  /-- An expression in the place of a statement. The reader builds none. -/
  | bare (e : Expr)
  /-- A statement in the place of an evaluated expression. The reader builds none. -/
  | stray (pos : Position) (inner : Stmt)
deriving Repr

namespace Declaration

def text (entry : Declaration) : Bytes :=
  match entry.array.filter (0 < ·.length), entry.init with
  | some storage, _ =>
    "Variable: " ++ entry.ty.deref.text ++ " " ++ entry.name ++ "[" ++ Bytes.ofInt storage.length ++ "];"
  | none, some init => "Variable: " ++ entry.ty.text ++ " " ++ entry.name ++ " = " ++ init.text ++ ";"
  | none, none => "Variable: " ++ entry.ty.text ++ " " ++ entry.name ++ ";"

end Declaration

def optionalText (e : Option Expr) : Bytes := (e.map Expr.text).getD []

namespace Stmt

def text : Stmt → Bytes
  | .empty => []
  | .breakLoop _ _ => "break;"
  | .continueLoop _ _ => "continue;"
  | .assembly _ _ => "__asm \x7b ... \x7d"
  | .branch _ condition _ _ => "if (" ++ optionalText condition ++ ")"
  | .forLoop _ init condition post _ _ =>
    let head := match init with
      | some first => Bytes.dropFront "Variable: " (Bytes.dropBack ";" first.text)
      | none => []
    "for (" ++ head ++ "; " ++ optionalText condition ++ "; " ++ optionalText post ++ ")"
  | .whileLoop _ condition _ => "while (" ++ optionalText condition ++ ")"
  | .ret _ value _ =>
    match value with
    | some e => "return " ++ e.text ++ ";"
    | none => "return;"
  | .declare _ entry => entry.text
  | .block _ _ _ => "\x7b ... \x7d"
  | .evaluate _ e => e.text
  | .bare e => e.text
  | .stray _ inner => inner.text
termination_by structural s => s

mutual

/-- Does control never run off the end? Jumps out of loops do not count. -/
def terminates : Stmt → Bool
  | .ret _ _ _ => true
  | .block _ body _ => anyTerminates body
  | .branch _ _ yes (some no) => yes.terminates && no.terminates
  | _ => false
termination_by structural s => s

def anyTerminates : List Stmt → Bool
  | [] => false
  | s :: rest => s.terminates || anyTerminates rest
termination_by structural ss => ss

end

end Stmt

end Cb
