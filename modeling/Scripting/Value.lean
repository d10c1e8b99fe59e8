import Scripting.Number.Decimal
import Scripting.Number.Fixed
import Scripting.Text.Utf8

/-
Values of scripts and their types. A shared value is the number of a cell of the store; all other
values are plain data. Function pointers are a name with the arguments already given.
-/
namespace Scripting

inductive HostValue where
  | point (x y : Integer)
  /-- A value that offers nothing at all. -/
  | sealed

inductive Value where
  | unit
  | bool (b : Bool)
  | int (t : IntType) (n : Fixed t)
  | float (f : Float)
  | float32 (f : Float32)
  | char (c : CodePoint)
  | string (t : Text)
  | array (items : List Value)
  /-- An object map, in the order of its keys. -/
  | map (entries : List (Text × Value))
  /-- A function pointer: the name of a function and its leading arguments. -/
  | fn (name : Text) (curry : List Value)
  /-- An alias of a cell of the store. -/
  | shared (cell : Nat)
  | host (v : HostValue)

instance : Inhabited Value := ⟨.unit⟩

inductive ValueType where
  | unit | bool | int (t : IntType) | float | float32 | char | string | array | map | fn
  /-- A parameter that takes every value. -/
  | any
  | point | sealed
  deriving DecidableEq, Repr

namespace IntType

def name : IntType → String
  | i8 => "i8" | i16 => "i16" | i32 => "i32" | i64 => "i64"
  | u8 => "u8" | u16 => "u16" | u32 => "u32" | u64 => "u64"

end IntType

namespace ValueType

abbrev i64 : ValueType := .int .i64

def label : ValueType → String
  | unit => "()" | bool => "bool" | int t => t.name | float => "f64" | float32 => "f32"
  | char => "char" | string => "string" | array => "array" | map => "map" | fn => "Fn"
  | any => "?" | point => "5Point" | sealed => "6Opaque"

def text (t : ValueType) : Text := Text.lit t.label

def rank : ValueType → Nat
  | point => 0 | sealed => 1 | char => 2 | string => 3 | unit => 4 | fn => 5 | any => 6 | map => 7
  | array => 8 | int .i8 => 9 | bool => 10 | float => 11 | float32 => 12 | int .u8 => 13
  | int .i32 => 14 | int .u32 => 15 | int .i64 => 16 | int .u64 => 17 | int .i16 => 18
  | int .u16 => 19

end ValueType

def HostValue.type : HostValue → ValueType
  | .point .. => .point
  | .sealed => .sealed

namespace Value

abbrev i64 (n : Integer) : Value := .int .i64 n

def ofNat (n : Nat) : Value := .i64 (Integer.ofNat n)

def isShared : Value → Bool
  | shared _ => true
  | _ => false

def isUnit : Value → Bool
  | unit => true
  | _ => false

def plainType : Value → ValueType
  | unit => .unit
  | bool _ => .bool
  | int t _ => .int t
  | float _ => .float
  | float32 _ => .float32
  | char _ => .char
  | string _ => .string
  | array _ => .array
  | map _ => .map
  | fn .. => .fn
  | shared _ => .any
  | host v => v.type

end Value

end Scripting
