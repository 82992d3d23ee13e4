import Cb.Asm.Listing
import Cb.Lower.Expression
import Cb.Stmt.Basic

/-! Code for statements. -/

namespace Cb

structure LoopLabels where
  breaks : Label
  continues : Label
deriving DecidableEq, Repr

namespace Lower

structure Context where
  comments : Bool
  cleanupOnBreak : Bool
  paramBytes : Nat
  loop : Option LoopLabels := none
  indent : Nat := 0

structure Emitted where
  lines : List Line := []
  labels : Nat
  terminates : Bool := false
  error : Option LowerError := none

namespace Context

def code (ctx : Context) (instrs : List Instr) : List Line := instrs.map fun i => ⟨ctx.indent, .instr i⟩

def label (ctx : Context) (l : Label) : Line := ⟨ctx.indent, .label l⟩

def comment (ctx : Context) (text : Bytes) : List Line :=
  if ctx.comments then [⟨ctx.indent, .comment text⟩] else []

end Context

def release (bytes : Int) : List Instr :=
  if 0 < bytes then [.arithmetic .add (register .stack) (.immediate bytes)] else []

/-- Jumps to the target when the condition holds. A missing condition always holds, a constant one is
decided here. -/
def conditionalJump (condition : Option Expr) (target : Label) : List Instr × Option LowerError :=
  match condition with
  | none => ([.jump target], none)
  | some e =>
    if e.isConstant then (if e.value ≠ 0 then [.jump target] else [], none)
    else match e with
      | .binary _ op left right =>
        if op.isComparison then
          let lowered := comparison op (operands (expression left) (expression right)
            (.ofSize left.ty.size) right.usesRegisters)
          (lowered.code ++ [.jumpIf op target], lowered.error)
        else ([], some (.notComparison e.text))
      | _ => ([], some (.notComparison e.text))

def epilogue (paramBytes : Nat) : List Instr := [.pop (register .base), .ret paramBytes]

def jumpOut (ctx : Context) (cleanup : Int) (target : Option Label) : List Instr × Option LowerError :=
  match target with
  | some label => ((if ctx.cleanupOnBreak then release cleanup else []) ++ [.jump label], none)
  | none => ([], some .outsideLoop)

def declaration (entry : Declaration) : Lowered :=
  match entry.array.filter (0 < ·.length), entry.init with
  | some storage, _ =>
    { code := [.arithmetic .sub (register .stack) (.immediate storage.reserved),
        .mov (register .dx) (register .base),
        .arithmetic .sub (register .dx) (.immediate (-storage.offset)),
        .push (register .dx)] }
  | none, some init => pushSlot (expression init) entry.ty.size
  | none, none => { code := [.arithmetic .sub (register .stack) (.immediate entry.ty.paddedSize)] }

def returnValue (e : Expr) : Lowered :=
  let target := register (accumulator (.ofSize e.ty.size))
  let value := expression e
  if value.result = target then value
  else { value with code := value.code ++ [.mov target value.result], result := target }

mutual

def statement (ctx : Context) (labels : Nat) (s : Stmt) : Emitted :=
  match s with
  | .empty => { labels }
  | .breakLoop _ cleanup =>
    let (code, error) := jumpOut ctx cleanup (ctx.loop.map (·.breaks))
    { lines := ctx.comment "break" ++ ctx.code code, labels, terminates := true, error }
  | .continueLoop _ cleanup =>
    let (code, error) := jumpOut ctx cleanup (ctx.loop.map (·.continues))
    { lines := ctx.comment "continue" ++ ctx.code code, labels, terminates := true, error }
  | .assembly _ lines =>
    let frame (text : Bytes) : Line := ⟨ctx.indent, .comment text⟩
    { lines := frame "=== inline assembly block ===" :: lines.map (⟨ctx.indent, .verbatim ·⟩)
        ++ [frame "=== end of inline assembly ==="], labels }
  | .branch _ condition yes none =>
    let number := labels + 1
    let yesLabel : Label := ⟨number, .trueBranch⟩
    let endLabel : Label := ⟨number, .endIf⟩
    let (test, testError) := conditionalJump condition yesLabel
    let first := statement ctx number yes
    { lines := ctx.comment s.text ++ ctx.code (test ++ [.jump endLabel]) ++ ctx.label yesLabel :: first.lines
        ++ [ctx.label endLabel]
      labels := first.labels, error := testError <|> first.error }
  | .branch _ condition yes (some no) =>
    let number := labels + 1
    let yesLabel : Label := ⟨number, .trueBranch⟩
    let noLabel : Label := ⟨number, .falseBranch⟩
    let endLabel : Label := ⟨number, .endIf⟩
    let (test, testError) := conditionalJump condition yesLabel
    let first := statement ctx number yes
    let second := statement ctx first.labels no
    { lines := ctx.comment s.text ++ ctx.code (test ++ [.jump noLabel]) ++ ctx.label yesLabel :: first.lines
        ++ ctx.code (if first.terminates then [] else [.jump endLabel]) ++ ctx.label noLabel :: second.lines
        ++ [ctx.label endLabel]
      labels := second.labels, terminates := first.terminates && second.terminates
      error := testError <|> first.error <|> second.error }
  | .whileLoop _ condition body =>
    let number := labels + 1
    let startLabel : Label := ⟨number, .whileCondition⟩
    let bodyLabel : Label := ⟨number, .whileBody⟩
    let endLabel : Label := ⟨number, .whileEnd⟩
    let (test, testError) := conditionalJump condition bodyLabel
    let inner := statement { ctx with loop := some ⟨endLabel, startLabel⟩ } number body
    { lines := ctx.comment s.text ++ ctx.label startLabel :: ctx.code (test ++ [.jump endLabel])
        ++ ctx.label bodyLabel :: inner.lines ++ ctx.code [.jump startLabel] ++ [ctx.label endLabel]
      labels := inner.labels, error := testError <|> inner.error }
  | .forLoop _ init condition post body cleanup =>
    let number := labels + 1
    let startLabel : Label := ⟨number, .forCondition⟩
    let bodyLabel : Label := ⟨number, .forBody⟩
    let nextLabel : Label := ⟨number, .forIncrement⟩
    let endLabel : Label := ⟨number, .forEnd⟩
    let first : Emitted := match init with
      | some clause =>
        let emitted := statement ctx number clause
        { emitted with lines := ctx.comment "for initializer" ++ emitted.lines }
      | none => { labels := number }
    let (test, testError) := conditionalJump condition bodyLabel
    let inner := statement { ctx with loop := some ⟨endLabel, nextLabel⟩ } first.labels body
    let next : Lowered := post.elim {} expression
    { lines := ctx.comment s.text ++ first.lines
        ++ ctx.comment ("for condition: " ++ optionalText condition)
        ++ ctx.label startLabel :: ctx.code (test ++ [.jump endLabel])
        ++ ctx.label bodyLabel :: inner.lines
        ++ ctx.label nextLabel :: (if post.isSome then ctx.comment "for incrementer" else [])
        ++ ctx.code (next.code ++ [.jump startLabel])
        ++ ctx.label endLabel
        :: (if 0 < cleanup then ctx.comment ("exiting for, popping " ++ Bytes.ofInt cleanup ++ " bytes") else [])
        ++ ctx.code (release cleanup)
      labels := inner.labels, error := first.error <|> testError <|> inner.error <|> next.error }
  | .ret _ value cleanup =>
    let computed : Lowered := value.elim {} returnValue
    { lines := ctx.comment s.text ++ ctx.code (computed.code ++ release cleanup ++ epilogue ctx.paramBytes)
      labels, terminates := true, error := computed.error }
  | .declare _ entry =>
    let lowered := declaration entry
    { lines := ctx.comment s.text ++ ctx.code lowered.code, labels, error := lowered.error }
  | .block _ body cleanup =>
    let inside : Context := { ctx with indent := ctx.indent + 1 }
    let emitted := statements inside labels body
    if emitted.terminates || cleanup ≤ 0 then emitted
    else
      { emitted with lines := emitted.lines
          ++ inside.comment ("exiting block, pop " ++ Bytes.ofInt cleanup ++ " bytes")
          ++ inside.code [.popBytes cleanup] }
  | .evaluate _ e =>
    let lowered := expression e
    { lines := ctx.comment e.text ++ ctx.code lowered.code, labels, error := lowered.error }
  | .bare e => { labels, error := some (.unexpectedStatement e.text) }
  | .stray _ inner =>
    { lines := ctx.comment inner.text, labels, error := some (.unexpectedExpression inner.text) }
termination_by structural s

/-- Statements in a row. What follows one that terminates is dead and left out. -/
def statements (ctx : Context) (labels : Nat) (body : List Stmt) : Emitted :=
  match body with
  | [] => { labels }
  | s :: rest =>
    let first := statement ctx labels s
    if first.terminates then first
    else
      let others := statements ctx first.labels rest
      { others with lines := first.lines ++ others.lines, error := first.error <|> others.error }
termination_by structural body

end

end Lower

end Cb
