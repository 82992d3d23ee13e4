import Cb.Lower.Reachable
import Cb.Lower.Statement
import Cb.Settings.Basic

/-! Code for whole programs. -/

namespace Cb

namespace Lower

def heapBlockSize : Nat := 16384

def heapBlockHeader : Nat := 4

def defineMacro (head : Bytes) (body : List Bytes) (listing : Listing) : Listing :=
  ((body.foldl Listing.line (listing.line head).indented).dedented).line "endm"

def header : Listing :=
  let data := (((({} : Listing).line ".MODEL compact").line ".STACK 7FFFh").line ".DATA").indented
    |>.line "__firstItemAddress dw 2"
    |>.line "__firstBlockNext dw 0"
    |>.line ("__firstBlockSize dw " ++ Bytes.ofNat heapBlockSize)
    |>.line ("__firstBlockPayload db " ++ Bytes.ofNat (heapBlockSize - heapBlockHeader) ++ " dup(0)")
  let start := data.dedented.blank.line ".CODE" |>.blank.line "program:" |>.indented
    |>.comment "init data segment"
    |>.line "mov ax, @data"
    |>.line "mov ds, ax"
    |>.comment "call main"
    |>.line ("call " ++ entryName)
    |>.line "mov al, 0"
    |>.line "mov ah, 4Ch"
    |>.line "int 21h"
  start.dedented.blank.comment "utility macros"
    |> defineMacro "push_byte macro val" ["sub sp, 1", "mov si, sp", "mov byte ptr ss:[si], val"]
    |> defineMacro "pop_byte macro to" ["mov si, sp", "mov to, byte ptr ss:[si]", "add sp, 1"]
    |> defineMacro "pop_bytes macro count" ["add sp, count"]
    |>.blank.blank

def procedure (settings : Settings) (labels : Nat) (f : Function) (body : Stmt) : Emitted :=
  let ctx : Context :=
    { comments := settings.features .asmComments, cleanupOnBreak := settings.features .cleanupOnBreak
      paramBytes := f.paramBytes }
  let inside : Context := { ctx with indent := 1 }
  let emitted := statement ctx labels body
  { emitted with lines :=
      [⟨0, .comment f.text⟩, ⟨0, .procedure f.name⟩] ++ inside.comment "init stack frame"
      ++ inside.code [.push (register .base), .mov (register .base) (register .stack)]
      ++ emitted.lines
      ++ inside.code (if emitted.terminates then [] else epilogue f.paramBytes)
      ++ [⟨0, .endProcedure f.name⟩, ⟨0, .blank⟩] }

end Lower

structure Generated where
  lines : List Line := []
  problem : Option Problem := none
  warnings : List Diagnostic := []

def unusedWarning (f : Function) : Diagnostic :=
  { message := "function " ++ f.name ++ " is never used", severity := .warning
    flag := Warning.unusedFunction.flag }

namespace Lower

def functions (settings : Settings) (needed : List Bytes) (labels : Nat) : List Function → Generated
  | [] => { lines := [⟨0, .verbatim "END program"⟩] }
  | f :: rest =>
    match f.body with
    | none => functions settings needed labels rest
    | some body =>
      if needed.contains f.name then
        let emitted := procedure settings labels f body
        match emitted.error with
        | some error => { lines := emitted.lines, problem := some (.plain error.message) }
        | none =>
          let others := functions settings needed emitted.labels rest
          { others with lines := emitted.lines ++ others.lines }
      else
        let others := functions settings needed labels rest
        if settings.warnings .unusedFunction then
          { others with warnings := unusedWarning f :: others.warnings }
        else others

end Lower

def Program.generate (program : Program) (settings : Settings) : Generated :=
  match program.reachable with
  | .error error => { problem := some (.diagnostic error.diagnostic) }
  | .ok needed =>
    let emitted := Lower.functions settings needed 0 program.functions
    { emitted with lines := Lower.header.lines ++ emitted.lines }

end Cb
