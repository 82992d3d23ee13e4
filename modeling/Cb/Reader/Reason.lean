import Cb.Expr.Build
import Cb.Scope

/-! Why reading failed. -/

namespace Cb

def endOfFile : Nat := 0

def endOfLine : Nat := 10

def showCode (code : Nat) : Bytes :=
  if code = endOfFile then "end of file"
  else if code = endOfLine then "end of line"
  else encode code

inductive Reason where
  | expected (code got : Nat)
  | expectedBlank (got : Nat)
  | expectedCommaOrParen (got : Nat)
  | invalid (what : Bytes)
  | undefinedType (name : Bytes)
  | variableDefined (name : Bytes)
  | variableUndefined (name : Bytes)
  | functionDefined (name : Bytes)
  | functionUndefined (name : Bytes)
  | unnamedParameter
  | voidVariable
  | breakOutsideLoop
  | continueOutsideLoop
  | assemblyDisabled
  | arraysDisabled
  | arraySizeNotConstant
  | arraySizeNotPositive
  | noAddress
  | unknownEscape (code : Nat)
  | literalOutOfBounds (value : Int)
  | conditionType (ty : Ty)
  | build (error : BuildError)
  | register (error : RegisterError)
  | other (text : Bytes)
deriving DecidableEq, Repr

def Reason.message : Reason → Bytes
  | .expected code got => "expected: '" ++ showCode code ++ "', got: '" ++ showCode got ++ "'"
  | .expectedBlank got => "expected: ' ', got: '" ++ showCode got ++ "'"
  | .expectedCommaOrParen got => "expected: ',' or ')', got: '" ++ encode got ++ "'"
  | .invalid what => "invalid " ++ what
  | .undefinedType name => "undefined type: " ++ name
  | .variableDefined name => "variable is already defined: " ++ name
  | .variableUndefined name => "variable '" ++ name ++ "' is not defined"
  | .functionDefined name => "function with this name is already defined: " ++ name
  | .functionUndefined name => "function is not defined: " ++ name
  | .unnamedParameter => "function implementation can't skip parameter names"
  | .voidVariable => "can't define variables of void type"
  | .breakOutsideLoop => "can't break while not in loop"
  | .continueOutsideLoop => "can't continue while not in loop"
  | .assemblyDisabled => "inline assembly is disabled (-Fasm)"
  | .arraysDisabled => "arrays are disabled (-Farrays)"
  | .arraySizeNotConstant => "array size must be a constant integer"
  | .arraySizeNotPositive => "array size must be positive"
  | .noAddress => "can't take the address of expression"
  | .unknownEscape code => "unknown escape sequence: \\" ++ encode code
  | .literalOutOfBounds value => "integer literal is out of bounds: " ++ Bytes.ofInt value
  | .conditionType ty => "invalid condition type, expected: flags, got: " ++ ty.text
  | .build error => error.message
  | .register error => error.message
  | .other text => text

end Cb
