import Scripting.Position

/-
What can go wrong, as causes. The wording of every error is fixed here, in one place.
-/
namespace Scripting

/-- Faults in the characters of a script. They travel inside tokens. -/
inductive LexFault where
  | unexpectedInput | unterminatedString | stringTooLong | malformedEscape | malformedNumber
  | malformedChar | malformedIdentifier | improperSymbol
  deriving DecidableEq, Repr

structure LexError where
  fault : LexFault
  /-- The offending input, or the whole message of an improper symbol. -/
  text : Text := []
  /-- The limit that a string literal exceeds. -/
  limit : Nat := 0
  deriving DecidableEq, Repr

open Text in
def LexError.message (e : LexError) : Text :=
  match e.fault with
  | .unexpectedInput => lit "Unexpected " ++ inTicks e.text
  | .unterminatedString => lit "Open string is not terminated"
  | .stringTooLong =>
    lit "Length of string literal exceeds the maximum limit (" ++ ofNat e.limit ++ lit ")"
  | .malformedEscape => lit "Invalid escape sequence: " ++ inTicks e.text
  | .malformedNumber => lit "Invalid number: " ++ inTicks e.text
  | .malformedChar => lit "Invalid character: " ++ inTicks e.text
  | .malformedIdentifier => lit "Variable name is not proper: " ++ inTicks e.text
  | .improperSymbol => e.text

inductive ParseFault where
  | badInput | unexpectedEof | unknownOperator | missingToken | malformedCallExpr
  | malformedIndexExpr | duplicatedProperty | propertyExpected | variableExpected | exprExpected
  | wrongFnDefinition | fnMissingName | fnMissingParams | fnDuplicatedParam | fnMissingBody
  | fnDuplicatedDefinition | wrongExport | duplicatedExport | assignmentToInvalidLhs | loopBreak
  | exprTooDeep
  deriving DecidableEq, Repr

/-- Faults of integer and float arithmetic, with the texts of the operands. -/
inductive ArithmeticFault where
  | additionOverflow (x y : Text)
  | subtractionOverflow (x y : Text)
  | multiplicationOverflow (x y : Text)
  | divisionByZero (x y : Text)
  | divisionOverflow (x y : Text)
  | modulo (x y : Text)
  | indexTooLarge (x y : Text)
  | indexNegative (x y : Text)
  | powerOverflow (x y : Text)
  | floatIndexTooLarge (x y : Text)
  | leftShiftNegative (x y : Text)
  | leftShiftTooFar (x y : Text)
  | rightShiftNegative (x y : Text)
  | rightShiftTooFar (x y : Text)
  | negationOverflow (x : Text)
  | stated (detail : Text)
  deriving DecidableEq, Repr

open Text in
def ArithmeticFault.detail : ArithmeticFault → Text
  | additionOverflow x y => lit "Addition overflow: " ++ x ++ lit " + " ++ y
  | subtractionOverflow x y => lit "Subtraction overflow: " ++ x ++ lit " - " ++ y
  | multiplicationOverflow x y => lit "Multiplication overflow: " ++ x ++ lit " * " ++ y
  | divisionByZero x y => lit "Division by zero: " ++ x ++ lit " / " ++ y
  | divisionOverflow x y => lit "Division overflow: " ++ x ++ lit " / " ++ y
  | modulo x y => lit "Modulo division by zero or overflow: " ++ x ++ lit " % " ++ y
  | indexTooLarge x y => lit "Integer raised to too large an index: " ++ x ++ lit " ~ " ++ y
  | indexNegative x y => lit "Integer raised to a negative index: " ++ x ++ lit " ~ " ++ y
  | powerOverflow x y => lit "Power overflow: " ++ x ++ lit " ~ " ++ y
  | floatIndexTooLarge x y => lit "Number raised to too large an index: " ++ x ++ lit " ~ " ++ y
  | leftShiftNegative x y => lit "Left-shift by a negative number: " ++ x ++ lit " << " ++ y
  | leftShiftTooFar x y => lit "Left-shift by too many bits: " ++ x ++ lit " << " ++ y
  | rightShiftNegative x y => lit "Right-shift by a negative number: " ++ x ++ lit " >> " ++ y
  | rightShiftTooFar x y => lit "Right-shift by too many bits: " ++ x ++ lit " >> " ++ y
  | negationOverflow x => lit "Negation overflow: -" ++ x
  | stated detail => detail

inductive IndexFault where
  | arrayBounds (index : Int) (size : Nat)
  | stringBounds (index : Int) (size : Nat)
  | unsupported (type : Text)
  deriving DecidableEq, Repr

open Text in
def IndexFault.detail : IndexFault → Text
  | arrayBounds index size =>
    lit "Array index " ++ ofInt index ++ lit " out of bounds: only " ++ ofNat size ++
      lit " elements in the array"
  | stringBounds index size =>
    lit "String index " ++ ofInt index ++ lit " out of bounds: only " ++ ofNat size ++
      lit " characters in the string"
  | unsupported type => lit "Indexing is not supported for " ++ type

inductive Measured where
  | string | array | map
  deriving DecidableEq, Repr

def Measured.label : Measured → Text
  | string => Text.lit "Length of string"
  | array => Text.lit "Size of array"
  | map => Text.lit "Size of map"

inductive Cause where
  /-- A fault in the script's structure. Its class is lost once host code has passed the error on. -/
  | parsing (fault : Option ParseFault) (detail : Text)
  | functionNotFound (signature : Text)
  | moduleNotFound (path : Text)
  | variableNotFound (name : Text)
  | mismatchedType (expected actual : Text)
  /-- A shared value is in use; the name is empty when none is known. -/
  | dataRace (name : Text)
  | arithmetic (fault : ArithmeticFault)
  | indexing (fault : IndexFault)
  | assignmentToConstant (name : Text)
  | tooManyOperations
  | stackOverflow (depth : Nat)
  | dataTooLarge (what : Measured) (limit : Nat)
  | terminated
  | runtime (detail : Text)
  deriving DecidableEq, Repr

open Text in
def Cause.category : Cause → Text
  | parsing .. => lit "ParseError"
  | functionNotFound _ => lit "FunctionNotFound"
  | moduleNotFound _ => lit "ModuleNotFound"
  | variableNotFound _ => lit "VariableNotFound"
  | mismatchedType .. => lit "MismatchedType"
  | dataRace _ => lit "DataRace"
  | arithmetic _ => lit "ArithmeticError"
  | indexing _ => lit "IndexError"
  | assignmentToConstant _ => lit "AssignmentToConstant"
  | tooManyOperations => lit "TooManyOperations"
  | stackOverflow _ => lit "StackOverflow"
  | dataTooLarge .. => lit "DataTooLarge"
  | terminated => lit "Terminated"
  | runtime _ => lit "RuntimeError"

open Text in
def Cause.detail : Cause → Text
  | parsing _ detail => detail
  | functionNotFound signature => signature
  | moduleNotFound path => path
  | variableNotFound name => name
  | mismatchedType expected actual => lit "expected " ++ expected ++ lit ", got " ++ actual
  | dataRace [] => lit "shared value is already locked"
  | dataRace name => inTicks name ++ lit " is already locked"
  | arithmetic fault => fault.detail
  | indexing fault => fault.detail
  | assignmentToConstant name => lit "cannot modify constant " ++ inTicks name
  | tooManyOperations => lit "too many operations"
  | stackOverflow depth => lit "maximum call depth (" ++ ofNat depth ++ lit ") exceeded"
  | dataTooLarge what limit =>
    what.label ++ lit " exceeds the maximum limit (" ++ ofNat limit ++ lit ")"
  | terminated => lit "script terminated"
  | runtime detail => detail

/-- An error: its cause and the place in the script, if it has one. -/
structure Error where
  cause : Cause
  pos : Position
  deriving DecidableEq, Repr

namespace Error

def message (e : Error) : Text :=
  let plain := e.cause.category ++ Text.lit ": " ++ e.cause.detail
  if e.pos.isNowhere then plain else plain ++ Text.lit " (" ++ e.pos.text ++ Text.lit ")"

/-- The error of a host call as the script sees it: an error without a place is put at the place of
the call, and only its wording is kept of a fault in the script's structure. -/
def located (e : Error) (pos : Position) : Error :=
  if e.pos.isNowhere then
    match e.cause with
    | .parsing _ detail => ⟨.parsing none detail, pos⟩
    | cause => ⟨cause, pos⟩
  else e

end Error

end Scripting
