import Scripting.Module

/-
The standard package: arithmetic and comparison for every number type, logic, strings, arrays and
object maps.
-/
namespace Scripting.Package

/-- A function of a package: its name, its parameter types and what it does. -/
abbrev Offer := String × List ValueType × Native

def install (m : Module) (offers : List Offer) : Module :=
  offers.foldl (fun m (name, params, f) => m.setNative (Text.lit name) params f .exposed) m

def core (name : String) (params : List ValueType) (f : CoreFn) : Offer := (name, params, .core f)

def intTypes : List IntType := [.i8, .i16, .i32, .i64, .u8, .u16, .u32, .u64]

def relations : List (String × Relation) :=
  [("==", .eq), ("!=", .ne), ("<", .lt), ("<=", .le), (">", .gt), (">=", .ge)]

def equalities : List (String × Relation) := [("==", .eq), ("!=", .ne)]

def integerOffers (t : IntType) : List Offer :=
  let own : List (String × IntBinary) :=
    [("+", .add), ("-", .sub), ("*", .mul), ("/", .div), ("%", .mod), ("&", .bitAnd), ("|", .bitOr),
      ("^", .bitXor)]
  let scaled : List (String × IntScale) := [("~", .power), ("<<", .shiftLeft), (">>", .shiftRight)]
  own.map (fun (name, op) => core name [.int t, .int t] (.intBinary t op)) ++
  scaled.map (fun (name, op) => core name [.int t, .i64] (.intScale t op)) ++
  [core "+" [.int t] (.intUnary t .plus)] ++
  (if t.signed then
    [core "-" [.int t] (.intUnary t .negate), core "abs" [.int t] (.intUnary t .absolute),
      core "sign" [.int t] (.intSign t)]
  else []) ++
  relations.map (fun (name, r) => core name [.int t, .int t] (.intRelation t r))

def floatOffers (type : ValueType) (binary : FloatBinary → CoreFn) (power : CoreFn)
    (unary : Sign → CoreFn) (sign : CoreFn) (relation : Relation → CoreFn) : List Offer :=
  let own : List (String × FloatBinary) :=
    [("+", .add), ("-", .sub), ("*", .mul), ("/", .div), ("%", .mod), ("~", .power)]
  own.map (fun (name, op) => core name [type, type] (binary op)) ++
  [core "~" [type, .i64] power, core "+" [type] (unary .plus), core "-" [type] (unary .negate),
    core "abs" [type] (unary .absolute), core "sign" [type] sign] ++
  relations.map (fun (name, r) => core name [type, type] (relation r))

def logicOffers : List Offer :=
  relations.map (fun (name, r) => core name [.char, .char] (.charRelation r)) ++
  relations.map (fun (name, r) => core name [.string, .string] (.stringRelation r)) ++
  equalities.map (fun (name, r) => core name [.bool, .bool] (.boolRelation r)) ++
  equalities.map (fun (name, r) => core name [.unit, .unit] (.unitRelation r)) ++
  [core "!" [.bool] .boolNot, core "&" [.bool, .bool] .boolAnd, core "|" [.bool, .bool] .boolOr,
    core "^" [.bool, .bool] .boolXor]

def printable : List ValueType :=
  [.float, .bool, .char, .string, .unit, .array, .map, .fn, .float32] ++ intTypes.map .int

def stringOffers : List Offer :=
  printable.map (fun t => core "print" [t] .display) ++
  printable.map (fun t => core "to_string" [t] .display) ++
  printable.map (fun t => core "debug" [t] .debug) ++
  [core "+" [.string, .string] .concat] ++
  [ValueType.char, .i64, .float, .bool, .unit].flatMap (fun t =>
    [core "+" [.string, t] .concat, core "+" [t, .string] .concat]) ++
  [core "+=" [.string, .string] .stringExtend, core "+=" [.string, .char] .stringExtend,
    core "len" [.string] .stringLen, core "contains" [.string, .string] .stringContains,
    core "contains" [.string, .char] .charInString, core "to_upper" [.string] .toUpper,
    core "to_lower" [.string] .toLower]

def containerOffers : List Offer :=
  [core "push" [.array, .any] .arrayPush, core "pop" [.array] .arrayPop,
    core "len" [.array] .arrayLen, core "clear" [.array] .arrayClear,
    core "contains" [.array, .any] .arrayContains, core "+" [.array, .array] .arrayConcat,
    core "+=" [.array, .array] .arrayExtend, core "range" [.i64, .i64] .range,
    core "len" [.map] .mapLen, core "keys" [.map] .mapKeys, core "values" [.map] .mapValues,
    core "remove" [.map, .string] .mapRemove, core "contains" [.map, .string] .mapContains]

def coreOffers : List Offer :=
  intTypes.flatMap integerOffers ++
  floatOffers .float32 .float32Binary .float32Power .float32Unary .float32Sign .float32Relation ++
  floatOffers .float .floatBinary .floatPower .floatUnary .floatSign .floatRelation ++
  logicOffers ++ stringOffers ++ containerOffers

def coreModule : Module := install {} coreOffers

end Scripting.Package
