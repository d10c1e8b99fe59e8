import Mathlib.Algebra.Order.Ring.Int
import Mathlib.Data.Int.ModEq
import Mathlib.Tactic.Ring
import Scripting.Number.Arithmetic

/-
Powers of integers. Square and multiply only goes through powers of the base that are no further than
the one that is asked for, so a checked power fails only if its result does not fit its type.
-/
namespace Scripting

namespace IntType

/-- A number that a type can hold leaves room for every number of half its size, apart from its sign. -/
theorem holds_of_double_le {t : IntType} {m n : Int} (fits : t.Holds n)
    (small : 2 * m.natAbs ≤ n.natAbs) (sign : t.signed = false → 0 ≤ m) : t.Holds m := by
  cases t <;> simp [Holds, least, greatest, count, signed, bits] at * <;> omega

theorem holds_one (t : IntType) : t.Holds 1 := by
  cases t <;> decide

theorem holds_minus_one {t : IntType} (signed : t.signed = true) : t.Holds (-1) := by
  cases t with
  | i8 | i16 | i32 | i64 => decide
  | u8 | u16 | u32 | u64 => cases signed

theorem nonneg_of_unsigned {t : IntType} {n : Int} (unsigned : t.signed = false) (fits : t.Holds n) :
    0 ≤ n := by
  have low := fits.1
  rwa [least, unsigned] at low

/-- The powers before one that a type can hold are no larger. The square of a base is one of them, even
where the power itself is the least number and its opposite does not fit. -/
theorem holds_pow_of_le {t : IntType} {x : Int} (base : t.Holds x) {m n : Nat} (before : m ≤ n)
    (last : t.Holds (x ^ n)) : t.Holds (x ^ m) := by
  have sign : t.signed = false → 0 ≤ x ^ m := fun unsigned =>
    pow_nonneg (nonneg_of_unsigned unsigned base) m
  rcases Nat.eq_or_lt_of_le before with rfl | before
  · exact last
  obtain large | small : 2 ≤ x.natAbs ∨ x.natAbs ≤ 1 := by omega
  · refine holds_of_double_le last ?_ sign
    calc 2 * (x ^ m).natAbs = x.natAbs ^ m * 2 := by rw [Int.natAbs_pow, Nat.mul_comm]
      _ ≤ x.natAbs ^ m * x.natAbs := Nat.mul_le_mul_left _ large
      _ = x.natAbs ^ (m + 1) := (pow_succ _ _).symm
      _ ≤ x.natAbs ^ n := Nat.pow_le_pow_right (by omega) before
      _ = (x ^ n).natAbs := (Int.natAbs_pow _ _).symm
  · obtain rfl | rfl | rfl : x = 0 ∨ x = 1 ∨ x = -1 := by omega
    · cases m with
      | zero => exact t.holds_one
      | succ m => simpa using t.holds_zero
    · simpa using t.holds_one
    · have signed : t.signed = true := by
        cases unsigned : t.signed with
        | true => rfl
        | false => exact absurd (nonneg_of_unsigned unsigned base) (by decide)
      rcases neg_one_pow_eq_or Int m with even | odd
      · rw [even]
        exact t.holds_one
      · rw [odd]
        exact holds_minus_one signed

end IntType

namespace Arithmetic

variable {t : IntType}

theorem powerLoop_modEq {mul : Int → Int → Option Int} {modulus : Int}
    (right : ∀ a b c, mul a b = some c → c ≡ a * b [ZMOD modulus]) {result base n : Int} {e : Nat}
    (done : powerLoop mul result base e = some n) : n ≡ result * base ^ e [ZMOD modulus] := by
  have turn : ∀ {e : Nat} {result base r : Int},
      (if e % 2 = 1 then mul result base else some result) = some r →
      r ≡ result * base ^ (e % 2) [ZMOD modulus] := by
    intro e result base r first
    split at first
    · next odd =>
      rw [odd, pow_one]
      exact right _ _ _ first
    · next even =>
      cases first
      rw [(Nat.mod_two_eq_zero_or_one e).resolve_right even, pow_zero, mul_one]
  fun_induction powerLoop mul result base e with
  | case1 result base =>
    cases done
    rw [pow_zero, mul_one]
  | case2 => cases done
  | case3 result base e nonzero r first last =>
    cases done
    have one : e = e % 2 := by omega
    rw [one]
    exact turn first
  | case4 => cases done
  | case5 result base e nonzero r first more square squared ih =>
    calc n ≡ r * square ^ (e / 2) [ZMOD modulus] := ih done
      _ ≡ result * base ^ (e % 2) * (base * base) ^ (e / 2) [ZMOD modulus] :=
        (turn first).mul ((right _ _ _ squared).pow _)
      _ = result * base ^ (e % 2 + 2 * (e / 2)) := by rw [pow_add, pow_mul, pow_two, mul_assoc]
      _ = result * base ^ e := by rw [Nat.mod_add_div]

theorem powerLoop_isSome {mul : Int → Int → Option Int} (total : ∀ a b, (mul a b).isSome)
    (result base : Int) (e : Nat) : (powerLoop mul result base e).isSome := by
  fun_induction powerLoop mul result base e with
  | case1 => rfl
  | case2 result base e nonzero none =>
    split at none
    · exact absurd none (Option.isSome_iff_ne_none.mp (total _ _))
    · cases none
  | case3 => rfl
  | case4 result base e nonzero r first more none =>
    exact absurd none (Option.isSome_iff_ne_none.mp (total _ _))
  | case5 result base e nonzero r first more square squared ih => exact ih

theorem checkedMul_pow {x : Int} (base : t.Holds x) {i j n : Nat} (within : i + j ≤ n)
    (last : t.Holds (x ^ n)) : checkedMul t (x ^ i) (x ^ j) = some (x ^ (i + j)) := by
  rw [checkedMul, ← pow_add, if_pos (IntType.holds_pow_of_le base within last)]

/-- The loop for `x ^ n`, where the product so far is `x ^ a` and the square `x ^ b`: it only meets
powers up to the `n`-th. -/
theorem powerLoop_checked {x : Int} (base : t.Holds x) {a b e : Nat}
    (last : t.Holds (x ^ (a + b * e))) :
    powerLoop (checkedMul t) (x ^ a) (x ^ b) e = some (x ^ (a + b * e)) := by
  induction e using Nat.strongRecOn generalizing a b with
  | ind e ih =>
    rw [powerLoop]
    by_cases none : e = 0
    · rw [if_pos none, none, Nat.mul_zero, Nat.add_zero]
    have turn : (if e % 2 = 1 then checkedMul t (x ^ a) (x ^ b) else some (x ^ a)) =
        some (x ^ (a + b * (e % 2))) := by
      split
      · next odd =>
        rw [odd, Nat.mul_one]
        have taken : b ≤ b * e := Nat.le_mul_of_pos_right b (by omega)
        exact checkedMul_pow base (by omega) last
      · next even =>
        rw [(Nat.mod_two_eq_zero_or_one e).resolve_right even, Nat.mul_zero, Nat.add_zero]
    have whole : a + b * e = a + b * (e % 2) + (b + b) * (e / 2) := by
      rw [← Nat.two_mul, Nat.mul_comm 2, Nat.mul_assoc, Nat.add_assoc, ← Nat.mul_add,
        Nat.mod_add_div]
    rw [if_neg none, turn]
    dsimp only
    by_cases done : e / 2 = 0
    · rw [if_pos done, whole, done, Nat.mul_zero, Nat.add_zero]
    · have taken : b + b ≤ (b + b) * (e / 2) := Nat.le_mul_of_pos_right _ (by omega)
      rw [whole] at last ⊢
      rw [if_neg done, checkedMul_pow base (Nat.le_add_left_of_le taken) last]
      exact ih (e / 2) (by omega) last

/-- Checked square and multiply gives the power, if its type can hold it, and otherwise nothing that
can be a result. -/
theorem powerLoop_checked_bind (x : Fixed t) (e : Nat) :
    (powerLoop (checkedMul t) 1 x.val e).bind (Fixed.ofInt? t) = Fixed.ofInt? t (x.val ^ e) := by
  by_cases fits : t.Holds (x.val ^ e)
  · have whole := powerLoop_checked x.inside (a := 0) (b := 1) (e := e) (by simpa using fits)
    rw [pow_zero, pow_one, Nat.zero_add, Nat.one_mul] at whole
    rw [whole, Option.bind_some]
  · have outside : Fixed.ofInt? t (x.val ^ e) = none := dif_neg fits
    rw [outside, Option.bind_eq_none_iff]
    intro n done
    have right : ∀ a b c, checkedMul t a b = some c → c ≡ a * b [ZMOD 0] := by
      intro a b c made
      unfold checkedMul at made
      split at made
      · cases made
        rfl
      · cases made
    have exact := Int.modEq_zero_iff.mp (powerLoop_modEq right done)
    rw [exact, one_mul, outside]

/-! Products that are reduced. -/

theorem reduce_modEq (t : IntType) (n : Int) : t.reduce n ≡ n [ZMOD t.count] := by
  unfold IntType.reduce
  calc t.least + (n - t.least) % t.count ≡ t.least + (n - t.least) [ZMOD t.count] :=
      (Int.ModEq.refl _).add (Int.mod_modEq _ _)
    _ = n := by ring

theorem reduce_congr {m n : Int} (h : m ≡ n [ZMOD t.count]) : t.reduce m = t.reduce n :=
  congrArg (t.least + ·) (h.sub_right t.least)

def WrapsAround (beyond : Int → Int → Int) : Prop :=
  ∀ a b, beyond a b ≡ a * b [ZMOD IntType.i32.count]

theorem wrapsAround_reduce : WrapsAround fun a b => IntType.i32.reduce (a * b) := fun a b =>
  reduce_modEq .i32 (a * b)

theorem patterns_modEq (t : IntType) (a b : Int) :
    (a % t.count) * (b % t.count) ≡ a * b [ZMOD t.count] :=
  (Int.mod_modEq a _).mul (Int.mod_modEq b _)

theorem definedMul_eq_some {a b c : Int} (h : definedMul t a b = some c) : c = t.reduce (a * b) := by
  unfold definedMul at h
  dsimp only at h
  split at h
  · cases h
  · cases h
    exact reduce_congr (patterns_modEq t a b)

/-- Only operands of 16 bits have products that are not defined: those of 8 bits are too small, and from
32 bits on products are unsigned. -/
theorem definedMul_isSome (wide : t.bits ≠ 16) (a b : Int) : (definedMul t a b).isSome := by
  unfold definedMul
  dsimp only
  split
  · next beyond =>
    have narrow : t.bits = 8 := by
      cases t <;> simp [IntType.bits] at *
    have count : (t.count : Int) = 256 := by rw [IntType.count, narrow]; rfl
    rw [count] at beyond
    have low (n : Int) : 0 ≤ n % 256 ∧ n % 256 ≤ 255 := by omega
    have most : (a % 256) * (b % 256) ≤ 255 * 255 :=
      Int.mul_le_mul (low a).2 (low b).2 (low b).1 (by decide)
    have least : 0 ≤ (a % 256) * (b % 256) := Int.mul_nonneg (low a).1 (low b).1
    have fits : IntType.i32.least ≤ 0 ∧ 255 * 255 ≤ IntType.i32.greatest := by decide
    exact absurd ⟨by omega, by omega⟩ beyond.2
  · rfl

theorem uncheckedMul_eq {beyond : Int → Int → Int} (right : t.bits ≠ 16 ∨ WrapsAround beyond)
    (a b : Int) : uncheckedMul beyond t a b = t.reduce (a * b) := by
  unfold uncheckedMul
  cases product : definedMul t a b with
  | some c => exact definedMul_eq_some product
  | none =>
    have wraps : WrapsAround beyond := right.resolve_left fun wide => by
      simpa [product] using definedMul_isSome wide a b
    have narrow : (t.count : Int) ∣ IntType.i32.count := by
      unfold definedMul at product
      dsimp only at product
      split at product
      · next few =>
        cases t <;> first | decide | exact absurd few.1 (by decide)
      · cases product
    exact reduce_congr (((wraps _ _).of_dvd narrow).trans (patterns_modEq t a b))

/-- Square and multiply takes the same way with the products of the second kind, if those of the
first kind are among them. -/
theorem powerLoop_mono {mul mul' : Int → Int → Option Int}
    (h : ∀ a b c, mul a b = some c → mul' a b = some c) {result base n : Int} {e : Nat}
    (done : powerLoop mul result base e = some n) : powerLoop mul' result base e = some n := by
  have turn : ∀ {e : Nat} {result base r : Int},
      (if e % 2 = 1 then mul result base else some result) = some r →
      (if e % 2 = 1 then mul' result base else some result) = some r := by
    intro e result base r first
    split at first
    · next odd =>
      rw [if_pos odd]
      exact h _ _ _ first
    · next even =>
      rw [if_neg even]
      exact first
  fun_induction powerLoop mul result base e with
  | case1 result base =>
    rw [powerLoop, if_pos rfl]
    exact done
  | case2 => cases done
  | case3 result base e nonzero r first last =>
    rw [powerLoop, if_neg nonzero, turn first]
    dsimp only
    rw [if_pos last]
    exact done
  | case4 => cases done
  | case5 result base e nonzero r first more square squared ih =>
    rw [powerLoop, if_neg nonzero, turn first]
    dsimp only
    rw [if_neg more, h _ _ _ squared]
    exact ih done

theorem power_checked_eq (x : Fixed t) (y : Integer) :
    power .checked x y =
      if greatestIndex < y.val then .error (.indexTooLarge x.text y.text)
      else if y.val < 0 then .error (.indexNegative x.text y.text)
      else match Fixed.ofInt? t (x.val ^ y.val.toNat) with
        | some r => .ok r
        | none => .error (.powerOverflow x.text y.text) := by
  rw [← powerLoop_checked_bind]
  rfl

theorem power_checked_eq_ok_iff {x r : Fixed t} {y : Integer} :
    power .checked x y = .ok r ↔
      0 ≤ y.val ∧ y.val ≤ 2 ^ 32 - 1 ∧ r.val = x.val ^ y.val.toNat := by
  have bound : greatestIndex = 2 ^ 32 - 1 := rfl
  rw [power_checked_eq, bound]
  by_cases tooLarge : 2 ^ 32 - 1 < y.val
  · simp only [if_pos tooLarge, reduceCtorEq, false_iff]
    omega
  by_cases negative : y.val < 0
  · simp only [if_neg tooLarge, if_pos negative, reduceCtorEq, false_iff]
    omega
  · have within : 0 ≤ y.val ∧ y.val ≤ 2 ^ 32 - 1 := by omega
    rw [if_neg tooLarge, if_neg negative, ← Fixed.ofInt?_eq_some, and_iff_right within.1,
      and_iff_right within.2]
    cases Fixed.ofInt? t (x.val ^ y.val.toNat) <;> simp

/-- An unchecked power always comes out, and is right where the machine wraps around or the products on
the way are defined. -/
theorem power_unchecked_modEq (beyond : Int → Int → Int) (x : Fixed t) {y : Integer}
    (index : 0 ≤ y.val) :
    ∃ r, power (.unchecked beyond) x y = .ok r ∧
      (t.bits ≠ 16 ∨ WrapsAround beyond ∨
        (powerLoop (definedMul t) 1 x.val y.val.toNat).isSome = true →
        r.val ≡ x.val ^ y.val.toNat [ZMOD t.count]) := by
  let mul a b := some (uncheckedMul beyond t a b)
  have total : ∀ a b, (mul a b).isSome := fun _ _ => rfl
  obtain ⟨n, done⟩ := Option.isSome_iff_exists.mp (powerLoop_isSome total 1 x.val y.val.toNat)
  have given : power (.unchecked beyond) x y = .ok (Fixed.wrap t n) := by
    simp only [power, if_neg (Int.not_lt.mpr index)]
    exact congrArg (fun o => Except.ok (Fixed.wrap t (o.getD 0))) done
  refine ⟨_, given, fun right => (reduce_modEq t n).trans ?_⟩
  have near : ∀ {mul : Int → Int → Option Int}, (∀ a b c, mul a b = some c → c = t.reduce (a * b)) →
      powerLoop mul 1 x.val y.val.toNat = some n → n ≡ x.val ^ y.val.toNat [ZMOD t.count] := by
    intro mul reduced done
    rw [← one_mul (x.val ^ _)]
    exact powerLoop_modEq (fun a b c made => reduced a b c made ▸ reduce_modEq t (a * b)) done
  rcases or_assoc.mpr right with right | defined
  · refine near (fun a b c made => ?_) done
    cases made
    exact uncheckedMul_eq right a b
  · obtain ⟨m, whole⟩ := Option.isSome_iff_exists.mp defined
    have taken : ∀ a b c, definedMul t a b = some c → mul a b = some c := by
      intro a b c made
      change some (uncheckedMul beyond t a b) = some c
      rw [uncheckedMul, made, Option.getD_some]
    have same := (powerLoop_mono taken whole).symm.trans done
    cases same
    exact near (fun a b c made => definedMul_eq_some made) whole

theorem square_of_undefined (x : Fixed t) (undefined : definedMul t x.val x.val = none) (r : Fixed t) :
    power (.unchecked fun _ _ => r.val) x (Integer.ofNat 2) = .ok r := by
  have kept : t.reduce r.val = r.val := t.reduce_of_holds _ r.inside
  have square : uncheckedMul (fun _ _ => r.val) t x.val x.val = r.val := by
    rw [uncheckedMul, undefined, Option.getD_none, kept]
  have last : uncheckedMul (fun _ _ => r.val) t 1 r.val = r.val := by
    unfold uncheckedMul
    cases product : definedMul t 1 r.val with
    | none => exact kept
    | some c => rw [Option.getD_some, definedMul_eq_some product, one_mul, kept]
  have two : (Integer.ofNat 2).val = 2 := by decide
  -- two turns: the base is squared, and then taken
  have whole : powerLoop (fun a b => some (uncheckedMul (fun _ _ => r.val) t a b)) 1 x.val 2 =
      some r.val := by
    rw [powerLoop, if_neg (by decide), if_neg (by decide)]
    dsimp only
    rw [if_neg (by decide), powerLoop, if_neg (by decide), if_pos (by decide), square, last]
    exact if_pos (by decide)
  simp only [power, two]
  rw [if_neg (by decide), show Int.toNat 2 = 2 from rfl, whole, Option.getD_some]
  exact congrArg Except.ok (Fixed.eq_of_val kept)

/-- The least number is a power of minus two, though its opposite does not fit. -/
example : power .checked (t := .i64) ⟨-2, by decide⟩ (Integer.ofNat 63) =
    .ok ⟨-9223372036854775808, by decide⟩ := by
  decide +kernel

end Arithmetic

end Scripting
