import Scripting.Dict
import Scripting.Native
import Scripting.Value.Display
import Scripting.Value.Equal

/-
What native functions do with their arguments, as far as they need no script to do it. A function
may change its first argument in place, and a change made before a failure stays.
-/
namespace Scripting

structure Applied where
  args : List Value
  result : Except Halt Value

namespace Applied

def failure (cause : Cause) : Except Halt Value := .error (.cause cause .nowhere)

def give (args : List Value) (result : Except Halt Value) : Applied := ⟨args, result⟩

def update (first : Value) (rest : List Value) (result : Except Halt Value) : Applied :=
  ⟨first :: rest, result⟩

def refuse (args : List Value) : Applied :=
  ⟨args, failure (.runtime (Text.lit "arguments do not match the parameters"))⟩

def arithmetic {α : Type} (make : α → Value) : Arithmetic.Result α → Except Halt Value
  | .ok a => .ok (make a)
  | .error fault => failure (.arithmetic fault)

end Applied

open Applied

/-- The integers from the first up to, but not including, the second. -/
def integerRange (first last : Integer) : List Value :=
  (List.range (last.val - first.val).toNat).map fun i : Nat => .i64 (Integer.wrap (first.val + i))

namespace CoreFn

/-- Is an item equal to one of the list? The search ends at the first that is. -/
def occurs (s : Store) (fuel : Nat) (item : Value) : List Value → Except Halt Bool
  | [] => .ok false
  | v :: rest => do if ← v.equal s fuel item then return true else occurs s fuel item rest

def value? (mode : Arithmetic) (s : Store) (fuel : Nat) (f : CoreFn) (args : List Value) :
    Option (Except Halt Value) :=
  match f, args with
  | intBinary t op, [.int t₁ x, .int t₂ y] =>
    if h : t₁ = t ∧ t₂ = t then
      some (arithmetic (.int t) (Arithmetic.binary mode op (h.1 ▸ x) (h.2 ▸ y)))
    else none
  | intScale t op, [.int t₁ x, .int .i64 y] =>
    if h : t₁ = t then some (arithmetic (.int t) (Arithmetic.scale mode op (h ▸ x) y)) else none
  | intUnary t op, [.int t₁ x] =>
    if h : t₁ = t then some (arithmetic (.int t) (Arithmetic.unary mode op (h ▸ x))) else none
  | intSign _, [.int _ x] => some (.ok (.i64 (Integer.wrap x.val.sign)))
  | intRelation _ r, [.int _ x, .int _ y] =>
    some (.ok (.bool (r.holds (· == ·) (decide <| · < ·) x.val y.val)))
  | floatBinary op, [.float x, .float y] => some (.ok (.float (Arithmetic.floatBinary op x y)))
  | floatPower, [.float x, .int .i64 y] => some (arithmetic .float (Arithmetic.floatPower mode x y))
  | floatUnary op, [.float x] => some (.ok (.float (Arithmetic.floatUnary op x)))
  | floatSign, [.float x] => some (.ok (.i64 (Integer.wrap (Arithmetic.floatSign x))))
  | floatRelation r, [.float x, .float y] =>
    some (.ok (.bool (r.holds (· == ·) (decide <| · < ·) x y)))
  | float32Binary op, [.float32 x, .float32 y] =>
    some (.ok (.float32 (Arithmetic.floatBinary op x y)))
  | float32Power, [.float32 x, .int .i64 y] =>
    some (arithmetic .float32 (Arithmetic.floatPower mode x y))
  | float32Unary op, [.float32 x] => some (.ok (.float32 (Arithmetic.floatUnary op x)))
  | float32Sign, [.float32 x] => some (.ok (.i64 (Integer.wrap (Arithmetic.floatSign x))))
  | float32Relation r, [.float32 x, .float32 y] =>
    some (.ok (.bool (r.holds (· == ·) (decide <| · < ·) x y)))
  | charRelation r, [.char x, .char y] =>
    some (.ok (.bool (r.holds (· == ·) (decide <| · < ·) x y)))
  | stringRelation r, [.string x, .string y] =>
    some (.ok (.bool (r.holds (· == ·) (decide <| · < ·) x y)))
  | boolRelation r, [.bool x, .bool y] =>
    some (.ok (.bool (r.holds (· == ·) (fun a b => !a && b) x y)))
  | unitRelation r, [.unit, .unit] =>
    some (.ok (.bool (r.holds (fun _ _ => true) (fun _ _ => false) () ())))
  | boolNot, [.bool x] => some (.ok (.bool !x))
  | boolAnd, [.bool x, .bool y] => some (.ok (.bool (x && y)))
  | boolOr, [.bool x, .bool y] => some (.ok (.bool (x || y)))
  | boolXor, [.bool x, .bool y] => some (.ok (.bool (x != y)))
  | display, [v] => some ((v.displayText s fuel).map .string)
  | debug, [v] => some ((v.debugText s fuel).map .string)
  | concat, [v, w] => some do return .string ((← v.displayText s fuel) ++ (← w.displayText s fuel))
  | stringLen, [.string t] => some (.ok (.ofNat (Utf8.length t)))
  | stringContains, [.string t, .string sub] => some (.ok (.bool (sub.occursIn t)))
  | charInString, [.string t, .char c] => some (.ok (.bool (Text.occursIn (Utf8.encode c) t)))
  | toUpper, [.string t] => some (.ok (.string t.toUpper))
  | toLower, [.string t] => some (.ok (.string t.toLower))
  | arrayLen, [.array xs] => some (.ok (.ofNat xs.length))
  | arrayContains, [.array xs, v] => some ((occurs s fuel v xs).map .bool)
  | arrayConcat, [.array xs, .array ys] => some (.ok (.array (xs ++ ys)))
  | range, [.int .i64 x, .int .i64 y] => some (.ok (.array (integerRange x y)))
  | mapLen, [.map es] => some (.ok (.ofNat es.length))
  | mapKeys, [.map es] => some (.ok (.array (es.map fun e => .string e.1)))
  | mapValues, [.map es] => some (.ok (.array (es.map (·.2))))
  | mapContains, [.map es, .string key] => some (.ok (.bool (Dict.contains es key)))
  | _, _ => none

def change? (s : Store) (fuel : Nat) (f : CoreFn) (args : List Value) : Option Applied :=
  match f, args with
  | stringExtend, [.string t, v] =>
    match v.displayText s fuel with
    | .ok u => some (update (.string (t ++ u)) [v] (.ok .unit))
    | .error h => some (give args (.error h))
  | arrayPush, [.array xs, v] => some (update (.array (xs ++ [v])) [v] (.ok .unit))
  | arrayPop, [.array xs] => some (update (.array xs.dropLast) [] (.ok (xs.getLast?.getD .unit)))
  | arrayClear, [.array _] => some (update (.array []) [] (.ok .unit))
  | arrayExtend, [.array xs, .array ys] =>
    some (update (.array (xs ++ ys)) [.array ys] (.ok .unit))
  | mapRemove, [.map es, .string key] =>
    some (update (.map (Dict.erase key es)) [.string key] (.ok ((Dict.find? key es).getD .unit)))
  | _, _ => none

def apply (mode : Arithmetic) (s : Store) (fuel : Nat) (f : CoreFn) (args : List Value) : Applied :=
  match f.value? mode s fuel args with
  | some result => give args result
  | none => (f.change? s fuel args).getD (refuse args)

end CoreFn

namespace HostFn

def integerItem (s : Store) (fuel : Nat) (items : List Value) (i : Nat) : Except Halt Integer :=
  match items[i]? with
  | none => .error (.cause (.runtime (Text.lit "vector::_M_range_check: __n (which is " ++
      Text.ofNat i ++ Text.lit ") >= this->size() (which is " ++ Text.ofNat items.length ++
      Text.lit ")")) .nowhere)
  | some v => do
    match ← s.flatten fuel v with
    | .int .i64 n => return n
    | v => .error (.cause (.mismatchedType ValueType.i64.text v.plainType.text) .nowhere)

/-- Both coordinates from an array; the first is kept even if the second fails. -/
def setPair (s : Store) (fuel : Nat) (y : Integer) (x : Integer) (items : List Value) :
    HostValue × Except Halt Value :=
  match integerItem s fuel items 0 with
  | .error h => (.point x y, .error h)
  | .ok x =>
    match integerItem s fuel items 1 with
    | .error h => (.point x y, .error h)
    | .ok y => (.point x y, .ok .unit)

def runtime (detail : Text) : Except Halt Value := failure (.runtime detail)

def beforeNul (t : Text) : Text := t.takeWhile (· != 0)

def wrapped (n : Int) : Value := .i64 (Integer.wrap n)

def apply (s : Store) (fuel : Nat) (f : HostFn) (args : List Value) : Applied :=
  match f, args with
  | toInt t, [.int .i64 n] => give args (.ok (.int t (Fixed.wrap t n.val)))
  | toFloat32, [.float f] => give args (.ok (.float32 f.toFloat32))
  | multiplyInPlace, [.int .i64 x, .int .i64 y] =>
    update (wrapped (x.val * y.val)) [.i64 y] (.ok .unit)
  | plusOne, [.int .i64 x] => give args (.ok (wrapped (x.val + 1)))
  | boom, [] => give args (runtime (Text.lit "boom"))
  | boomText, [.string t] => give args (runtime (beforeNul t))
  | failIf, [.bool b] =>
    give args (if b then runtime (Text.lit "failed") else .ok (.ofNat 7))
  | failAt, [] =>
    give args (.error (.cause (.arithmetic (.stated (Text.lit "fixed position"))) ⟨7, 9⟩))
  | failParse, [.bool placed] =>
    give args (.error (.cause (.parsing (some .badInput) (Text.lit "native parse"))
      (if placed then ⟨3, 3⟩ else .nowhere)))
  | halfWay, [.int .i64 _] => update (.ofNat 99) [] (runtime (Text.lit "after write"))
  | newPoint, [.int .i64 x, .int .i64 y] => give args (.ok (.host (.point x y)))
  | newSealed, [] => give args (.ok (.host .sealed))
  | pointX, [.host (.point x _)] => give args (.ok (.i64 x))
  | setPointX, [.host (.point _ y), .int .i64 v] =>
    update (.host (.point v y)) [.i64 v] (.ok .unit)
  | pointY, [.host (.point _ y)] => give args (.ok (.i64 y))
  | setPointY, [.host (.point x _), .int .i64 v] =>
    update (.host (.point x v)) [.i64 v] (.ok .unit)
  | pointPair, [.host (.point x y)] => give args (.ok (.array [.i64 x, .i64 y]))
  | setPointPair, [.host (.point x y), .array items] =>
    let (p, result) := setPair s fuel y x items
    update (.host p) [.array items] result
  | pointIndex, [.host (.point x y), .int .i64 i] =>
    give args (if i.val = 0 then .ok (.i64 x) else if i.val = 1 then .ok (.i64 y)
      else runtime (Text.lit "bad point index"))
  | setPointIndex, [.host (.point x y), .int .i64 i, .int .i64 v] =>
    if i.val = 0 then update (.host (.point v y)) [.i64 i, .i64 v] (.ok .unit)
    else if i.val = 1 then update (.host (.point x v)) [.i64 i, .i64 v] (.ok .unit)
    else give args (runtime (Text.lit "bad point index"))
  | pointSum, [.host (.point x y)] => give args (.ok (wrapped (x.val + y.val)))
  | pointShift, [.host (.point x y), .int .i64 d] =>
    update (.host (.point (Integer.wrap (x.val + d.val)) (Integer.wrap (y.val + d.val)))) [.i64 d]
      (.ok .unit)
  | pointManhattan, [.host (.point x y)] =>
    give args (.ok (wrapped (x.val.natAbs + y.val.natAbs)))
  | pointEqual, [.host (.point x y), .host (.point u v)] =>
    give args (.ok (.bool (x = u && y = v)))
  | pointAdd, [.host (.point x y), .host (.point u v)] =>
    give args (.ok (.host (.point (Integer.wrap (x.val + u.val)) (Integer.wrap (y.val + v.val)))))
  | pointReduce, [.host (.point x y), .int .i64 n] =>
    update (.host (.point (Integer.wrap (x.val - n.val)) y)) [.i64 n] (.ok .unit)
  | pointPrint, [.host (.point x y)] =>
    give args (.ok (.string (Text.lit "<" ++ x.text ++ Text.lit "|" ++ y.text ++ Text.lit ">")))
  | pointDebug, [.host (.point x _)] => give args (.ok (.i64 x))
  | isNotEmpty, [.string t] => give args (.ok (.bool !t.isEmpty))
  | byteLength, [.string t] => give args (.ok (.ofNat t.length))
  | lengthToNul, [.string t] => give args (.ok (.ofNat (beforeNul t).length))
  | shout, [.string t] => give args (.ok (.string (t ++ Text.lit "!")))
  | fixedText, [] => give args (.ok (.string (Text.lit "c-text")))
  | setText, [.string _, .string t] => update (.string t) [.string t] (.ok .unit)
  | _, args => refuse args

end HostFn

def Native.apply (mode : Arithmetic) (fuel : Nat) (f : Native) (s : Store) (args : List Value) :
    Applied :=
  match f with
  | .core f => f.apply mode s fuel args
  | .host f => f.apply s fuel args
  | .tagged _ => refuse args

end Scripting
