import Cb.Text.Blank
import Cb.Text.Bytes

/-! Compiler scenarios written in Markdown. A scenario starts at a heading `Test: <name>` and holds
one fence with a source and fences with what is expected of it. -/

namespace Cb

/-- A piece of a document, with the byte at which it starts. -/
structure Segment where
  start : Nat
  text : Bytes
deriving DecidableEq, Repr

/-- The headings, with their texts, and the code fences of a document; each with its lines. -/
inductive MarkdownBlock where
  | heading (texts : List Bytes) (lines : List Segment)
  | fence (label : Bytes) (lines : List Segment)
deriving DecidableEq, Repr

namespace Segment

def firstLine (document : Bytes) : List Segment → Nat
  | [] => 1
  | first :: _ => (document.take first.start).count 10 + 1

def content (lines : List Segment) : Bytes :=
  ((lines.flatMap text).reverse.dropWhile (· = 10)).reverse

end Segment

inductive AssertionKind where
  | asm
  | error
  | warning
deriving DecidableEq, Repr

def AssertionKind.label : AssertionKind → Bytes
  | .asm => "asm"
  | .error => "error"
  | .warning => "warning"

structure Assertion where
  kind : AssertionKind
  content : Bytes
deriving DecidableEq, Repr

def Assertion.lines (assertion : Assertion) : List Bytes :=
  ((Bytes.split 10 assertion.content).map trim).filter (!·.isEmpty)

structure Scenario where
  name : Bytes
  line : Nat
  input : Bytes := []
  assertions : List Assertion := []
deriving DecidableEq, Repr

inductive ScenarioFault where
  | strayFence (line : Nat) (label : Bytes)
  | secondInput (line : Nat) (name : Bytes)
  | unknownLabel (line : Nat) (label name : Bytes)
  | noInput (name : Bytes)
  | noAssertion (name : Bytes)
deriving DecidableEq, Repr

def ScenarioFault.message : ScenarioFault → Bytes
  | .strayFence line label => "line " ++ Bytes.ofNat line ++ ": " ++ label ++ " fence found outside of test case"
  | .secondInput line name =>
    "line " ++ Bytes.ofNat line ++ ": multiple input fences found in test '" ++ name ++ "'"
  | .unknownLabel line label name =>
    "line " ++ Bytes.ofNat line ++ ": unknown fence language '" ++ label ++ "' in test '" ++ name ++ "'"
  | .noInput name => "test '" ++ name ++ "' has no input fence"
  | .noAssertion name => "test '" ++ name ++ "' has no assertion fences"

structure ScenarioError where
  fault : ScenarioFault
  atEnd : Bool
deriving DecidableEq, Repr

def ScenarioError.message (error : ScenarioError) : Bytes :=
  if error.atEnd then error.fault.message else "error walking markdown AST: " ++ error.fault.message

namespace Scenario

def fault? (scenario : Scenario) : Option ScenarioFault :=
  if scenario.input.isEmpty then some (.noInput scenario.name)
  else if scenario.assertions.isEmpty then some (.noAssertion scenario.name)
  else none

def finished (current : Option Scenario) (atEnd : Bool) : Except ScenarioError (List Scenario) :=
  match current with
  | none => .ok []
  | some scenario =>
    match scenario.fault? with
    | some fault => .error ⟨fault, atEnd⟩
    | none => .ok [scenario]

def kind? (label : Bytes) : Option AssertionKind :=
  [AssertionKind.asm, .error, .warning].find? (·.label = label)

def addFence (scenario : Scenario) (label content : Bytes) (line : Nat) : Except ScenarioFault Scenario :=
  if label = "cb" then
    if scenario.input.isEmpty then .ok { scenario with input := content }
    else .error (.secondInput line scenario.name)
  else match kind? label with
    | some kind => .ok { scenario with assertions := scenario.assertions ++ [⟨kind, content⟩] }
    | none => if label.isEmpty then .ok scenario else .error (.unknownLabel line label scenario.name)

def collect (document : Bytes) (current : Option Scenario) :
    List MarkdownBlock → Except ScenarioError (List Scenario)
  | [] => finished current true
  | .heading texts lines :: rest =>
    match Bytes.after? "Test: " texts.flatten with
    | none => collect document current rest
    | some name => do
      let done ← finished current false
      let more ← collect document (some { name, line := Segment.firstLine document lines }) rest
      return done ++ more
  | .fence label lines :: rest =>
    let line := Segment.firstLine document lines
    match current with
    | none => if label.isEmpty then collect document none rest else .error ⟨.strayFence line label, false⟩
    | some scenario =>
      match scenario.addFence label (Segment.content lines) line with
      | .ok extended => collect document (some extended) rest
      | .error fault => .error ⟨fault, false⟩

def extract (blocks : Bytes → List MarkdownBlock) (document : Bytes) : Except ScenarioError (List Scenario) :=
  collect document none (blocks document)

end Scenario

def firstMissing : List Bytes → List Bytes → Option Bytes
  | _, [] => none
  | [], line :: _ => some line
  | given :: rest, line :: wanted =>
    if trim given = line then firstMissing rest wanted else firstMissing rest (line :: wanted)

end Cb
