import Scripting.Text
import Scripting.Number.Binary

/-
Floats as decimal text. Printing keeps fifteen significant digits, drops trailing zeros and always
shows a fractional part or an exponent; reading takes digits with an optional decimal point.
-/
namespace Scripting.Decimal

def precision : Nat := 15

def digitCount (n : Nat) : Nat := (Text.ofNat n).length

/-- The exponent `e` with `10 ^ e ≤ num / den < 10 ^ (e + 1)`, for a positive rational. -/
def exponent (num den : Nat) : Int :=
  let guess : Int := (digitCount num : Int) - (digitCount den : Int)
  let factor := Nat.pow 10 guess.natAbs
  let atLeast := if guess < 0 then den ≤ num * factor else den * factor ≤ num
  if atLeast then guess else guess - 1

/-- `num / den` to `precision` significant digits: the digits as one number and the exponent of the
first of them. -/
def significant (num den : Nat) : Nat × Int :=
  let e := exponent num den
  let shift := e - ((precision : Int) - 1)
  let digits :=
    if shift < 0 then Binary.roundDiv (num * Nat.pow 10 shift.natAbs) den
    else Binary.roundDiv num (den * Nat.pow 10 shift.natAbs)
  if digits = Nat.pow 10 precision then (Nat.pow 10 (precision - 1), e + 1) else (digits, e)

def dropZeros (t : Text) : Text := (t.reverse.dropWhile (· == 48)).reverse

/-- A fraction after its point, or nothing when only zeros are left. -/
def fractionText (digits : Text) : Text :=
  let kept := dropZeros digits
  if kept.isEmpty then [] else 46 :: kept

def exponentText (e : Int) : Text :=
  let digits := Text.ofNat e.natAbs
  let sign := if e < 0 then Text.lit "e-" else Text.lit "e+"
  sign ++ (if digits.length < 2 then 48 :: digits else digits)

/-- A positive number. Exponents from -4 up to the precision are written positionally. -/
def positive (num den : Nat) : Text :=
  let (digits, e) := significant num den
  let t := Text.ofNat digits
  if e < -4 ∨ (precision : Int) ≤ e then
    t.take 1 ++ fractionText (t.drop 1) ++ exponentText e
  else if e < 0 then
    48 :: fractionText (List.replicate (e.natAbs - 1) 48 ++ t)
  else
    t.take (e.natAbs + 1) ++ fractionText (t.drop (e.natAbs + 1))

def magnitude (mantissa : Nat) (power : Int) : Text :=
  if mantissa = 0 then Text.lit "0"
  else if power < 0 then positive mantissa (Nat.pow 2 power.natAbs)
  else positive (mantissa * Nat.pow 2 power.natAbs) 1

/-- Make sure that the text shows a fractional part or an exponent. -/
def withFraction (t : Text) : Text :=
  if t.contains 46 || t.contains 101 then t else t ++ Text.lit ".0"

def ofBits (bits : UInt64) : Text :=
  match Binary.parts bits with
  | .nan => Text.lit "NaN"
  | .infinite negative => if negative then Text.lit "-inf" else Text.lit "inf"
  | .finite negative mantissa power =>
    withFraction ((if negative then Text.lit "-" else []) ++ magnitude mantissa power)

def ofFloat (f : Float) : Text := ofBits f.toBits

def digitsValue (t : Text) : Nat := t.foldl (fun n b => n * 10 + (b.toNat - 48)) 0

/-- Read digits with an optional point between them; `none` if the text has another form, or if the
number is outside the range of floats. -/
def read? (negative : Bool) (t : Text) : Option Float :=
  let whole := t.takeWhile Text.isDigit
  let rest := t.drop whole.length
  let fraction := rest.drop 1
  let wellFormed := rest.isEmpty || (rest.head? == some 46 && fraction.all Text.isDigit)
  if whole.isEmpty || !wellFormed then none
  else
    let reading := Binary.nearest (digitsValue (whole ++ fraction)) (Nat.pow 10 fraction.length)
    if reading.outOfRange then none else some (Float.ofBits (Binary.withSign negative reading.bits))

end Scripting.Decimal
