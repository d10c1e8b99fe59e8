import Scripting.Text

/-
Integers of a fixed width. The eight integer types differ in their number of bits and in whether
they have a sign; a value of a type is a whole number within the type's bounds.
-/
namespace Scripting

inductive IntType where
  | i8 | i16 | i32 | i64 | u8 | u16 | u32 | u64
  deriving DecidableEq, Repr

namespace IntType

def bits : IntType → Nat
  | i8 | u8 => 8
  | i16 | u16 => 16
  | i32 | u32 => 32
  | i64 | u64 => 64

def signed : IntType → Bool
  | i8 | i16 | i32 | i64 => true
  | u8 | u16 | u32 | u64 => false

def count (t : IntType) : Nat := Nat.pow 2 t.bits

def least (t : IntType) : Int := if t.signed then -((t.count / 2 : Nat) : Int) else 0

def greatest (t : IntType) : Int := t.least + t.count - 1

def Holds (t : IntType) (n : Int) : Prop := t.least ≤ n ∧ n ≤ t.greatest

instance (t : IntType) (n : Int) : Decidable (t.Holds n) := inferInstanceAs (Decidable (_ ∧ _))

/-- Reduce a number into the bounds of a type, modulo the number of its numbers. -/
def reduce (t : IntType) (n : Int) : Int := t.least + (n - t.least) % t.count

theorem holds_reduce (t : IntType) (n : Int) : t.Holds (t.reduce n) := by
  cases t <;> simp [Holds, reduce, least, greatest, count, signed, bits] <;> omega

theorem reduce_of_holds (t : IntType) (n : Int) (h : t.Holds n) : t.reduce n = n := by
  cases t <;> simp [Holds, reduce, least, greatest, count, signed, bits] at * <;> omega

theorem holds_zero (t : IntType) : t.Holds 0 := by
  cases t <;> decide

end IntType

structure Fixed (t : IntType) where
  val : Int
  inside : t.Holds val

namespace Fixed

variable {t : IntType}

theorem eq_of_val {a b : Fixed t} (h : a.val = b.val) : a = b := by
  cases a; cases b; simp_all

instance : DecidableEq (Fixed t) := fun a b =>
  if h : a.val = b.val then isTrue (eq_of_val h) else isFalse fun e => h (e ▸ rfl)

instance : Inhabited (Fixed t) := ⟨⟨0, t.holds_zero⟩⟩

def ofInt? (t : IntType) (n : Int) : Option (Fixed t) :=
  if h : t.Holds n then some ⟨n, h⟩ else none

theorem ofInt?_eq_some {n : Int} {r : Fixed t} : ofInt? t n = some r ↔ r.val = n := by
  unfold ofInt?
  split
  · rw [Option.some.injEq]
    exact ⟨fun same => same ▸ rfl, fun same => eq_of_val same.symm⟩
  · next outside => simpa using fun same : r.val = n => outside (same ▸ r.inside)

def wrap (t : IntType) (n : Int) : Fixed t := ⟨t.reduce n, t.holds_reduce n⟩

def text (n : Fixed t) : Text := Text.ofInt n.val

end Fixed

abbrev Integer := Fixed .i64

namespace Integer

def wrap (n : Int) : Integer := Fixed.wrap .i64 n

def ofNat (n : Nat) : Integer := wrap n

def toFloat (n : Integer) : Float := (Int64.ofInt n.val).toFloat

end Integer

end Scripting
