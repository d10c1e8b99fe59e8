import Scripting.Error
import Scripting.Number.Decimal
import Scripting.Number.Fixed

/-
Arithmetic on integers of every width and on both float types. Checked arithmetic refuses results
that the type cannot hold; unchecked arithmetic reduces them into the type. Division by zero is
refused either way.

The machine multiplies unsigned operands of fewer than 32 bits as signed ints. Two operands of 16 bits
can have a product that no int holds, and such a product is not defined: it is whatever the machine
makes of it. Checked arithmetic forms no such product.
-/
namespace Scripting

inductive Arithmetic where
  | checked
  /-- With what the machine makes of the product of two unsigned operands that no int holds. -/
  | unchecked (beyond : Int → Int → Int)

inductive IntBinary where
  | add | sub | mul | div | mod | bitAnd | bitOr | bitXor
  deriving DecidableEq, Repr

/-- Operations on an integer of any type and one of the language itself. -/
inductive IntScale where
  | power | shiftLeft | shiftRight
  deriving DecidableEq, Repr

inductive Sign where
  | plus | negate | absolute
  deriving DecidableEq, Repr

inductive FloatBinary where
  | add | sub | mul | div | mod | power
  deriving DecidableEq, Repr

inductive Relation where
  | eq | ne | lt | le | gt | ge
  deriving DecidableEq, Repr

namespace Arithmetic

abbrev Result (α : Type) := Except ArithmeticFault α

def wrapping : Arithmetic := .unchecked fun a b => IntType.i32.reduce (a * b)

def isChecked : Arithmetic → Bool
  | .checked => true
  | .unchecked _ => false

def settle (mode : Arithmetic) (t : IntType) (fault : ArithmeticFault) (n : Int) : Result (Fixed t) :=
  match mode with
  | .checked =>
    match Fixed.ofInt? t n with
    | some r => .ok r
    | none => .error fault
  | .unchecked _ => .ok (Fixed.wrap t n)

/-- The product of the operands as unsigned numbers, reduced into the type, where it is defined. -/
def definedMul (t : IntType) (a b : Int) : Option Int :=
  let product := (a % t.count) * (b % t.count)
  if t.bits < 32 ∧ ¬ IntType.i32.Holds product then none else some (t.reduce product)

def uncheckedMul (beyond : Int → Int → Int) (t : IntType) (a b : Int) : Int :=
  (definedMul t a b).getD (t.reduce (beyond (a % t.count) (b % t.count)))

variable {t : IntType}

def pattern (x : Fixed t) : Nat := (x.val % t.count).toNat

def binary (mode : Arithmetic) (op : IntBinary) (x y : Fixed t) : Result (Fixed t) :=
  match op with
  | .add => settle mode t (.additionOverflow x.text y.text) (x.val + y.val)
  | .sub => settle mode t (.subtractionOverflow x.text y.text) (x.val - y.val)
  | .mul =>
    match mode with
    | .checked => settle .checked t (.multiplicationOverflow x.text y.text) (x.val * y.val)
    | .unchecked beyond => .ok (Fixed.wrap t (uncheckedMul beyond t x.val y.val))
  | .div =>
    if y.val = 0 then .error (.divisionByZero x.text y.text)
    else settle mode t (.divisionOverflow x.text y.text) (x.val.tdiv y.val)
  | .mod =>
    if y.val = 0 then .error (.modulo x.text y.text)
    else if mode.isChecked ∧ t.signed ∧ x.val = t.least ∧ y.val = -1 then
      .error (.modulo x.text y.text)
    else .ok (Fixed.wrap t (x.val.tmod y.val))
  | .bitAnd => .ok (Fixed.wrap t (pattern x &&& pattern y))
  | .bitOr => .ok (Fixed.wrap t (pattern x ||| pattern y))
  | .bitXor => .ok (Fixed.wrap t (pattern x ^^^ pattern y))

/-- Square and multiply: `result * base ^ e`, with every product going through `mul`. -/
def powerLoop (mul : Int → Int → Option Int) (result base : Int) (e : Nat) : Option Int :=
  if e = 0 then some result
  else
    match (if e % 2 = 1 then mul result base else some result) with
    | none => none
    | some result =>
      if e / 2 = 0 then some result
      else
        match mul base base with
        | none => none
        | some base => powerLoop mul result base (e / 2)
termination_by e

def checkedMul (t : IntType) (a b : Int) : Option Int := if t.Holds (a * b) then some (a * b) else none

def greatestIndex : Int := 4294967295

def power (mode : Arithmetic) (x : Fixed t) (y : Integer) : Result (Fixed t) :=
  match mode with
  | .checked =>
    if greatestIndex < y.val then .error (.indexTooLarge x.text y.text)
    else if y.val < 0 then .error (.indexNegative x.text y.text)
    else
      match (powerLoop (checkedMul t) 1 x.val y.val.toNat).bind (Fixed.ofInt? t) with
      | some r => .ok r
      | none => .error (.powerOverflow x.text y.text)
  | .unchecked beyond =>
    if y.val < 0 then .ok (Fixed.wrap t 0)
    else
      let mul a b := some (uncheckedMul beyond t a b)
      .ok (Fixed.wrap t ((powerLoop mul 1 x.val y.val.toNat).getD 0))

/-- The distance of a shift: within the width when checked, reduced by it otherwise. -/
def distance (mode : Arithmetic) (t : IntType) (negative tooFar : ArithmeticFault) (y : Integer) :
    Result Nat :=
  if mode.isChecked ∧ y.val < 0 then .error negative
  else if mode.isChecked ∧ t.bits ≤ y.val then .error tooFar
  else .ok (y.val % t.bits).toNat

def scale (mode : Arithmetic) (op : IntScale) (x : Fixed t) (y : Integer) : Result (Fixed t) :=
  match op with
  | .power => power mode x y
  | .shiftLeft => do
    let d ← distance mode t (.leftShiftNegative x.text y.text) (.leftShiftTooFar x.text y.text) y
    return Fixed.wrap t (x.val * (Nat.pow 2 d : Nat))
  | .shiftRight => do
    let d ← distance mode t (.rightShiftNegative x.text y.text) (.rightShiftTooFar x.text y.text) y
    return Fixed.wrap t (x.val / (Nat.pow 2 d : Nat))

def unary (mode : Arithmetic) (op : Sign) (x : Fixed t) : Result (Fixed t) :=
  match op with
  | .plus => .ok x
  | .negate => settle mode t (.negationOverflow x.text) (-x.val)
  | .absolute => settle mode t (.negationOverflow x.text) x.val.natAbs

class FloatLike (φ : Type) extends Add φ, Sub φ, Mul φ, Div φ, Neg φ, LT φ, BEq φ where
  decLt : DecidableLT φ
  pow : φ → φ → φ
  remainder : φ → φ → φ
  abs : φ → φ
  ofInteger : Integer → φ
  zero : φ
  text : φ → Text

instance : FloatLike Float where
  decLt := inferInstance
  pow := Float.pow
  remainder x y := Float.ofBits (Binary.remainder x.toBits y.toBits)
  abs := Float.abs
  ofInteger n := n.toFloat
  zero := 0
  text := Decimal.ofFloat

instance : FloatLike Float32 where
  decLt := inferInstance
  pow := Float32.pow
  remainder x y :=
    (Float.ofBits (Binary.remainder x.toFloat.toBits y.toFloat.toBits)).toFloat32
  abs := Float32.abs
  ofInteger n := (Int64.ofInt n.val).toFloat32
  zero := 0
  text f := Decimal.ofFloat f.toFloat

section Floats

variable {φ : Type} [FloatLike φ]

instance : DecidableLT φ := FloatLike.decLt

def floatBinary (op : FloatBinary) (x y : φ) : φ :=
  match op with
  | .add => x + y
  | .sub => x - y
  | .mul => x * y
  | .div => x / y
  | .mod => FloatLike.remainder x y
  | .power => FloatLike.pow x y

/-- A float to a whole index; checked arithmetic takes indices of 32 bits only. -/
def floatPower (mode : Arithmetic) (x : φ) (y : Integer) : Result φ :=
  if mode.isChecked ∧ ¬ IntType.i32.Holds y.val then
    .error (.floatIndexTooLarge (FloatLike.text x) y.text)
  else .ok (FloatLike.pow x (FloatLike.ofInteger y))

def floatUnary (op : Sign) (x : φ) : φ :=
  match op with
  | .plus => x
  | .negate => -x
  | .absolute => FloatLike.abs x

def floatSign (x : φ) : Int :=
  if x < FloatLike.zero then -1 else if FloatLike.zero < x then 1 else 0

end Floats

end Arithmetic

namespace Relation

/-- A relation from equality and order. What is not ordered, such as a float that is no number,
counts as neither less nor greater. -/
def holds {α : Type} (r : Relation) (same less : α → α → Bool) (x y : α) : Bool :=
  match r with
  | .eq => same x y
  | .ne => !same x y
  | .lt => less x y
  | .le => !less y x
  | .gt => less y x
  | .ge => !less x y

end Relation

end Scripting
