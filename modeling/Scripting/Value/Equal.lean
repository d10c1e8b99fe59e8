import Scripting.Store

/-
Equality of values by content. Aliases are compared by what they stand for. Host values without a
comparison of their own are equal only to themselves, so the comparison keeps track of whether its
two sides are the very same object.
-/
namespace Scripting.Value

structure Sides where
  /-- Both are the same part of the same object. -/
  same : Bool
  /-- The cells whose whole content the sides are. -/
  left : Option Nat := none
  right : Option Nat := none

namespace Sides

def identical (p : Sides) : Bool := p.same || (p.left.isSome && p.left == p.right)

def descend (p : Sides) : Sides := { same := p.identical }

def enterLeft (p : Sides) (c : Nat) : Sides := { p with same := false, left := some c }

def enterRight (p : Sides) (c : Nat) : Sides := { p with same := false, right := some c }

end Sides

def allEqual (eq : Value → Value → Except Halt Bool) : List Value → List Value → Except Halt Bool
  | [], [] => .ok true
  | a :: as, b :: bs => do if ← eq a b then allEqual eq as bs else return false
  | _, _ => .ok false

def entriesEqual (eq : Value → Value → Except Halt Bool) :
    List (Text × Value) → List (Text × Value) → Except Halt Bool
  | [], [] => .ok true
  | (k, a) :: as, (l, b) :: bs => do
    if k ≠ l then return false
    if ← eq a b then entriesEqual eq as bs else return false
  | _, _ => .ok false

def equalAt (s : Store) : Nat → Sides → Value → Value → Except Halt Bool
  | 0, _, _, _ => .error .outOfFuel
  | n + 1, sides, a, b =>
    match a, b with
    | shared c, b => do equalAt s n (sides.enterLeft c) (← s.read c [] .nowhere) b
    | a, shared c => do equalAt s n (sides.enterRight c) a (← s.read c [] .nowhere)
    | unit, unit => .ok true
    | bool a, bool b => .ok (a == b)
    | int t a, int u b => .ok (t = u && a.val = b.val)
    | float a, float b => .ok (a == b)
    | float32 a, float32 b => .ok (a == b)
    | char a, char b => .ok (a == b)
    | string a, string b => .ok (a == b)
    | array as, array bs =>
      if as.length ≠ bs.length then .ok false
      else allEqual (equalAt s n sides.descend) as bs
    | map as, map bs =>
      if as.length ≠ bs.length then .ok false
      else entriesEqual (equalAt s n sides.descend) as bs
    | fn f as, fn g bs =>
      if f ≠ g ∨ as.length ≠ bs.length then .ok false
      else allEqual (equalAt s n sides.descend) as bs
    | host a, host b => .ok (a.type = b.type && sides.identical)
    | _, _ => .ok false

def equal (s : Store) (fuel : Nat) (a b : Value) : Except Halt Bool :=
  equalAt s fuel { same := false } a b

end Scripting.Value
