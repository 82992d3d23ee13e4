import Cb.Stmt.Basic

/-! Walks over whole trees: the parts of a node, how many nodes there are, and which functions are
called. A missing part is no node. -/

namespace Cb

inductive Node where
  | expr (e : Expr)
  | stmt (s : Stmt)

namespace Node

def text : Node → Bytes
  | .expr e => e.text
  | .stmt s => s.text

def ofExpr? (e : Option Expr) : List Node := (e.map Node.expr).toList

/-- A statement as a node: an empty one is none. -/
def ofStmt : Stmt → List Node
  | .empty => []
  | .bare e => [.expr e]
  | s => [.stmt s]

def ofStmt? (s : Option Stmt) : List Node := s.elim [] ofStmt

def children : Node → List Node
  | .expr e => e.children.map .expr
  | .stmt s => match s with
    | .empty | .breakLoop _ _ | .continueLoop _ _ | .assembly _ _ => []
    | .branch _ condition yes no => ofExpr? condition ++ ofStmt yes ++ ofStmt? no
    | .forLoop _ init condition post body _ =>
      ofStmt? init ++ ofExpr? condition ++ ofExpr? post ++ ofStmt body
    | .whileLoop _ condition body => ofExpr? condition ++ ofStmt body
    | .ret _ value _ => ofExpr? value
    | .declare _ entry => ofExpr? entry.init
    | .block _ body _ => body.flatMap ofStmt
    | .evaluate _ e => [.expr e]
    | .bare e => e.children.map .expr
    | .stray _ inner => ofStmt inner

end Node

def countOptional (e : Option Expr) : Nat := e.elim 0 Expr.count

def callsOptional (e : Option Expr) : List Bytes := e.elim [] Expr.calls

namespace Stmt

mutual

def count : Stmt → Nat
  | .empty => 0
  | .breakLoop _ _ | .continueLoop _ _ | .assembly _ _ => 1
  | .branch _ condition yes no =>
    countOptional condition + yes.count + (match no with | some s => s.count | none => 0) + 1
  | .forLoop _ init condition post body _ =>
    (match init with | some s => s.count | none => 0) + countOptional condition + countOptional post
      + body.count + 1
  | .whileLoop _ condition body => countOptional condition + body.count + 1
  | .ret _ value _ => countOptional value + 1
  | .declare _ entry => countOptional entry.init + 1
  | .block _ body _ => countAll body + 1
  | .evaluate _ e => e.count + 1
  | .bare e => e.count
  | .stray _ inner => inner.count + 1
termination_by structural s => s

def countAll : List Stmt → Nat
  | [] => 0
  | s :: rest => s.count + countAll rest
termination_by structural ss => ss

end

mutual

def calls : Stmt → List Bytes
  | .empty | .breakLoop _ _ | .continueLoop _ _ | .assembly _ _ => []
  | .branch _ condition yes no =>
    callsOptional condition ++ yes.calls ++ (match no with | some s => s.calls | none => [])
  | .forLoop _ init condition post body _ =>
    (match init with | some s => s.calls | none => []) ++ callsOptional condition ++ callsOptional post
      ++ body.calls
  | .whileLoop _ condition body => callsOptional condition ++ body.calls
  | .ret _ value _ => callsOptional value
  | .declare _ entry => callsOptional entry.init
  | .block _ body _ => callsAll body
  | .evaluate _ e => e.calls
  | .bare e => e.calls
  | .stray _ inner => inner.calls
termination_by structural s => s

def callsAll : List Stmt → List Bytes
  | [] => []
  | s :: rest => s.calls ++ callsAll rest
termination_by structural ss => ss

end

end Stmt

def distinct : List Bytes → List Bytes
  | [] => []
  | name :: rest => name :: (distinct rest).filter (· ≠ name)

namespace Node

def count : Node → Nat
  | .expr e => e.count
  | .stmt s => s.count

def callNames : Node → List Bytes
  | .expr e => distinct e.calls
  | .stmt s => distinct s.calls

end Node

end Cb
