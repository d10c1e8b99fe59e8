import Scripting.Number.Arithmetic
import Scripting.Value

/-
Functions that are not written in the language. The standard package offers `CoreFn`; hosts offer
`HostFn`, or functions that only report how they were called.
-/
namespace Scripting

inductive CoreFn where
  | intBinary (t : IntType) (op : IntBinary)
  | intScale (t : IntType) (op : IntScale)
  | intUnary (t : IntType) (op : Sign)
  | intSign (t : IntType)
  | intRelation (t : IntType) (r : Relation)
  | floatBinary (op : FloatBinary)
  | floatPower
  | floatUnary (op : Sign)
  | floatSign
  | floatRelation (r : Relation)
  | float32Binary (op : FloatBinary)
  | float32Power
  | float32Unary (op : Sign)
  | float32Sign
  | float32Relation (r : Relation)
  | charRelation (r : Relation)
  | stringRelation (r : Relation)
  | boolRelation (r : Relation)
  | unitRelation (r : Relation)
  | boolNot | boolAnd | boolOr | boolXor
  /-- The plain text and the unmistakable text of a value. -/
  | display | debug
  /-- The plain texts of two values one after the other. -/
  | concat
  /-- Put text at the end of a string in place. -/
  | stringExtend
  | stringLen | stringContains | charInString | toUpper | toLower
  | arrayPush | arrayPop | arrayLen | arrayClear | arrayContains | arrayConcat | arrayExtend
  | range
  | mapLen | mapKeys | mapValues | mapRemove | mapContains
  deriving DecidableEq, Repr

inductive HostFn where
  /-- Make a number of another type. -/
  | toInt (t : IntType) | toFloat32
  /-- Call a function pointer in various ways. -/
  | callWithArg | callWithout | callOnFirst | applyAll
  /-- Report the call itself. -/
  | contextInfo
  | multiplyInPlace | plusOne
  /-- Fail in various ways. -/
  | boom | boomText | failIf | failAt | failParse | halfWay
  | newPoint | newSealed | pointX | setPointX | pointY | setPointY | pointPair | setPointPair
  | pointIndex | setPointIndex | pointSum | pointShift | pointManhattan | pointEqual | pointAdd
  | pointReduce | pointPrint | pointDebug
  | isNotEmpty | byteLength | lengthToNul | shout | fixedText | setText
  deriving DecidableEq, Repr

inductive Native where
  | core (f : CoreFn)
  | host (f : HostFn)
  /-- A function that gives back a tag and its arguments. -/
  | tagged (tag : Value)

end Scripting
