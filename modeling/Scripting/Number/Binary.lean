/-
Exact arithmetic behind binary floating point. A finite float is a whole number times a power of
two; reading, printing and remainders go through that exact value and round once at the end.
-/
namespace Scripting.Binary

/-- Nearest whole number to `num / den`, a half going to the even neighbour. -/
def roundDiv (num den : Nat) : Nat :=
  let q := num / den
  let r := num % den
  if 2 * r < den then q
  else if den < 2 * r then q + 1
  else if q % 2 = 0 then q else q + 1

/-- A positive rational `num / den` times two to the power of `-e`, as a rational. -/
def scale (num den : Nat) (e : Int) : Nat × Nat :=
  if e < 0 then (num * Nat.pow 2 e.natAbs, den) else (num, den * Nat.pow 2 e.natAbs)

/-- The exponent `e` with `2 ^ e ≤ num / den < 2 ^ (e + 1)`, for a positive rational. -/
def exponent (num den : Nat) : Int :=
  let guess : Int := (num.log2 : Int) - (den.log2 : Int)
  let scaled := scale num den guess
  if scaled.2 ≤ scaled.1 then guess else guess - 1

structure Reading where
  bits : UInt64
  /-- The number is too large, or too close to zero to be kept to full precision. -/
  outOfRange : Bool
  deriving DecidableEq, Repr

def hiddenBit : Nat := 0x10000000000000

def infinityBits : Nat := 0x7FF0000000000000

/-- The float nearest to `num / den`, a half going to the even neighbour. -/
def nearest (num den : Nat) : Reading :=
  if num = 0 then ⟨0, false⟩
  else
    let e := max (exponent num den - 52) (-1074)
    let scaled := scale num den e
    let q := roundDiv scaled.1 scaled.2
    let bits := (e + 1074).toNat * hiddenBit + q
    if infinityBits ≤ bits then ⟨UInt64.ofNat infinityBits, true⟩
    else
      let exact := scaled.1 % scaled.2 = 0
      let tiny := roundDiv (num * Nat.pow 2 1075) den < 2 * hiddenBit
      ⟨UInt64.ofNat bits, !exact && tiny⟩

/-- A float taken apart: sign, and the magnitude `mantissa * 2 ^ power` of a finite float. -/
inductive Parts where
  | nan
  | infinite (negative : Bool)
  | finite (negative : Bool) (mantissa : Nat) (power : Int)
  deriving DecidableEq, Repr

def signBit : Nat := 0x8000000000000000

def parts (bits : UInt64) : Parts :=
  let n := bits.toNat
  let negative := signBit ≤ n
  let magnitude := n % signBit
  let exponentField : Nat := magnitude / hiddenBit
  let fraction := magnitude % hiddenBit
  if exponentField = 2047 then
    if fraction = 0 then .infinite negative else .nan
  else if exponentField = 0 then .finite negative fraction (-1074)
  else .finite negative (fraction + hiddenBit) ((exponentField : Int) - 1075)

def withSign (negative : Bool) (bits : UInt64) : UInt64 :=
  if negative then bits ||| UInt64.ofNat signBit else bits

def nanBits : UInt64 := 0x7FF8000000000000

/-- The exact remainder of `x` by `y` toward zero, with the sign of `x`. -/
def remainder (x y : UInt64) : UInt64 :=
  match parts x, parts y with
  | .finite negative mx px, .finite _ my py =>
    if my = 0 then nanBits
    else
      let power := min px py
      let a := mx * Nat.pow 2 (px - power).toNat
      let b := my * Nat.pow 2 (py - power).toNat
      let r := a % b
      let magnitude :=
        if power < 0 then nearest r (Nat.pow 2 power.natAbs)
        else nearest (r * Nat.pow 2 power.natAbs) 1
      withSign negative magnitude.bits
  | .finite .., .infinite _ => x
  | _, _ => nanBits

end Scripting.Binary
