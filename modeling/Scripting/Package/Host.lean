import Scripting.Package.Core

/-
The function sets of the hosts that come with this library: numbers of other types, calls back into
a script, failures of every kind, a type of their own, and strings.
-/
namespace Scripting.Package

inductive HostSet where
  | widths | calls | fail | point | strings
  deriving DecidableEq, Repr

def host (name : String) (params : List ValueType) (f : HostFn) : Offer := (name, params, .host f)

def getter (property : Text) : Text := Text.lit "get$" ++ property

def setter (property : Text) : Text := Text.lit "set$" ++ property

def indexGetter : Text := Text.lit "index$get"

def indexSetter : Text := Text.lit "index$set"

def HostSet.offers : HostSet → List Offer
  | widths =>
    [host "i8" [.i64] (.toInt .i8), host "i16" [.i64] (.toInt .i16), host "i32" [.i64] (.toInt .i32),
      host "u8" [.i64] (.toInt .u8), host "u16" [.i64] (.toInt .u16),
      host "u32" [.i64] (.toInt .u32), host "u64" [.i64] (.toInt .u64),
      host "f32" [.float] .toFloat32]
  | calls =>
    [host "call_with_arg" [.fn, .i64] .callWithArg, host "custom_call" [.i64, .fn] .callWithout,
      host "bar" [.i64, .fn, .i64] .callOnFirst, host "apply_all" [.array, .fn] .applyAll,
      host "ctx_info" [.any] .contextInfo, host "mul" [.i64, .i64] .multiplyInPlace,
      host "plus_one" [.i64] .plusOne]
  | fail =>
    [host "boom" [] .boom, host "boom_text" [.string] .boomText, host "fail_if" [.bool] .failIf,
      host "fail_at" [] .failAt, host "fail_parse" [.bool] .failParse,
      host "half_way" [.i64] .halfWay]
  | point =>
    [host "new_point" [.i64, .i64] .newPoint, host "new_opaque" [] .newSealed,
      host "get$x" [.point] .pointX, host "set$x" [.point, .i64] .setPointX,
      host "get$y" [.point] .pointY, host "set$w" [.point, .i64] .setPointY,
      host "get$pair" [.point] .pointPair, host "set$pair" [.point, .array] .setPointPair,
      host "index$get" [.point, .i64] .pointIndex,
      host "index$set" [.point, .i64, .i64] .setPointIndex, host "sum" [.point] .pointSum,
      host "shift" [.point, .i64] .pointShift, host "manhattan" [.point] .pointManhattan,
      host "==" [.point, .point] .pointEqual, host "+" [.point, .point] .pointAdd,
      host "-=" [.point, .i64] .pointReduce, host "print" [.point] .pointPrint,
      host "debug" [.point] .pointDebug]
  | strings =>
    [host "write_out_str" [.string] .isNotEmpty, host "sv_len" [.string] .byteLength,
      host "c_len" [.string] .lengthToNul, host "shout" [.string] .shout,
      host "c_text" [] .fixedText, host "set_text" [.string, .string] .setText]

end Scripting.Package
