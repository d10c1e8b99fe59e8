import Scripting.Proofs.Contract.Stage
import Scripting.Proofs.Powers

/-
Unchecked arithmetic against checked arithmetic. They differ only where the checked one refuses, so a
run that checked arithmetic does not stop is the same run with unchecked arithmetic, to the last
cell and message. That is on machines whose ints wrap around, and for runs that do not depend on what
the machine makes of the products that it does not define.
-/
namespace Scripting

namespace Arithmetic

def Covers {α : Type} (checked unchecked : Result α) : Prop :=
  (∃ fault, checked = .error fault) ∨ unchecked = checked

variable {t : IntType} {beyond : Int → Int → Int}

theorem Covers.bind {α β : Type} {a b : Result α} (h : Covers a b) (f : α → Result β) :
    Covers (a >>= f) (b >>= f) := by
  rcases h with ⟨fault, refused⟩ | same
  · rw [refused]
    exact Or.inl ⟨fault, rfl⟩
  · rw [same]
    exact Or.inr rfl

theorem wrap_of_ofInt? {n : Int} {r : Fixed t} (h : Fixed.ofInt? t n = some r) : Fixed.wrap t n = r := by
  unfold Fixed.ofInt? at h
  split at h
  · next inside =>
    cases h
    exact Fixed.eq_of_val (t.reduce_of_holds n inside)
  · cases h

theorem settle_covers (beyond : Int → Int → Int) (fault : ArithmeticFault) (n : Int) :
    Covers (settle .checked t fault n) (settle (.unchecked beyond) t fault n) := by
  unfold settle
  cases settled : Fixed.ofInt? t n with
  | some r => exact Or.inr (congrArg Except.ok (wrap_of_ofInt? settled))
  | none => exact Or.inl ⟨fault, rfl⟩

section
variable (wraps : WrapsAround beyond)
include wraps

theorem uncheckedMul_of_holds {a b : Int} (inside : t.Holds (a * b)) :
    uncheckedMul beyond t a b = a * b :=
  (uncheckedMul_eq (.inr wraps) a b).trans (t.reduce_of_holds _ inside)

theorem binary_covers (op : IntBinary) (x y : Fixed t) :
    Covers (binary .checked op x y) (binary (.unchecked beyond) op x y) := by
  cases op with
  | add => exact settle_covers beyond _ _
  | sub => exact settle_covers beyond _ _
  | mul =>
    unfold binary settle
    dsimp only
    cases settled : Fixed.ofInt? t (x.val * y.val) with
    | none => exact Or.inl ⟨_, rfl⟩
    | some r =>
      have value := Fixed.ofInt?_eq_some.mp settled
      rw [uncheckedMul_of_holds wraps (value ▸ r.inside)]
      exact Or.inr (congrArg Except.ok (wrap_of_ofInt? settled))
  | div =>
    unfold binary
    dsimp only
    split
    · exact Or.inr rfl
    · exact settle_covers beyond _ _
  | mod =>
    unfold binary
    dsimp only
    split
    · exact Or.inr rfl
    · by_cases edge : t.signed = true ∧ x.val = t.least ∧ y.val = -1
      · exact Or.inl ⟨_, if_pos ⟨rfl, edge⟩⟩
      · rw [if_neg (fun h => edge h.2), if_neg (fun h => edge h.2)]
        exact Or.inr rfl
  | bitAnd => exact Or.inr rfl
  | bitOr => exact Or.inr rfl
  | bitXor => exact Or.inr rfl

theorem power_covers (x : Fixed t) (y : Integer) :
    Covers (power .checked x y) (power (.unchecked beyond) x y) := by
  have among : ∀ a b c, checkedMul t a b = some c → some (uncheckedMul beyond t a b) = some c := by
    intro a b c made
    unfold checkedMul at made
    split at made
    · next inside =>
      cases made
      exact congrArg some (uncheckedMul_of_holds wraps inside)
    · cases made
  unfold power
  dsimp only
  split
  · exact Or.inl ⟨_, rfl⟩
  · split
    · exact Or.inl ⟨_, rfl⟩
    · cases done : powerLoop (checkedMul t) 1 x.val y.val.toNat with
      | none => exact Or.inl ⟨_, rfl⟩
      | some n =>
        dsimp only [Option.bind_some]
        cases settled : Fixed.ofInt? t n with
        | none => exact Or.inl ⟨_, rfl⟩
        | some r =>
          rw [powerLoop_mono among done]
          exact Or.inr (congrArg Except.ok (wrap_of_ofInt? settled))

end

theorem distance_covers (negative tooFar : ArithmeticFault) (y : Integer) :
    Covers (distance .checked t negative tooFar y) (distance (.unchecked beyond) t negative tooFar y) := by
  unfold distance
  by_cases below : y.val < 0
  · exact Or.inl ⟨negative, if_pos ⟨rfl, below⟩⟩
  · by_cases above : (t.bits : Int) ≤ y.val
    · refine Or.inl ⟨tooFar, ?_⟩
      rw [if_neg (fun h => below h.2), if_pos ⟨rfl, above⟩]
    · refine Or.inr ?_
      simp [below, above]

theorem scale_covers (wraps : WrapsAround beyond) (op : IntScale) (x : Fixed t) (y : Integer) :
    Covers (scale .checked op x y) (scale (.unchecked beyond) op x y) := by
  cases op with
  | power => exact power_covers wraps x y
  | shiftLeft => exact (distance_covers _ _ y).bind _
  | shiftRight => exact (distance_covers _ _ y).bind _

theorem unary_covers (op : Sign) (x : Fixed t) :
    Covers (unary .checked op x) (unary (.unchecked beyond) op x) := by
  cases op with
  | plus => exact Or.inr rfl
  | negate => exact settle_covers beyond _ _
  | absolute => exact settle_covers beyond _ _

theorem floatPower_covers {φ : Type} [FloatLike φ] (x : φ) (y : Integer) :
    Covers (floatPower .checked x y) (floatPower (.unchecked beyond) x y) := by
  unfold floatPower
  by_cases inside : IntType.i32.Holds y.val
  · refine Or.inr ?_
    simp [inside]
  · exact Or.inl ⟨_, if_pos ⟨rfl, inside⟩⟩

end Arithmetic

def Halt.IsArithmetic (h : Halt) : Prop := ∃ fault pos, h = .cause (.arithmetic fault) pos

namespace CoreFn

theorem arithmetic_covers {α : Type} (make : α → Value) {a b : Arithmetic.Result α}
    (h : Arithmetic.Covers a b) :
    (∃ e, some (Applied.arithmetic make a) = some (.error e) ∧ e.IsArithmetic) ∨
      some (Applied.arithmetic make b) = some (Applied.arithmetic make a) := by
  rcases h with ⟨fault, refused⟩ | same
  · rw [refused]
    exact Or.inl ⟨_, rfl, fault, .nowhere, rfl⟩
  · rw [same]
    exact Or.inr rfl

section
variable {beyond : Int → Int → Int} (wraps : Arithmetic.WrapsAround beyond)
include wraps

theorem value?_covers (s : Store) (fuel : Nat) (f : CoreFn) (args : List Value) :
    (∃ e, f.value? .checked s fuel args = some (.error e) ∧ e.IsArithmetic) ∨
      f.value? (.unchecked beyond) s fuel args = f.value? .checked s fuel args := by
  have looks := value?_looks .checked (.unchecked beyond) s s fuel fuel f args
  generalize f.value? .checked s fuel args = r, f.value? (.unchecked beyond) s fuel args = r' at looks
  cases looks with
  | binary op x y => exact arithmetic_covers _ (Arithmetic.binary_covers wraps op x y)
  | scale op x y => exact arithmetic_covers _ (Arithmetic.scale_covers wraps op x y)
  | unary op x => exact arithmetic_covers _ (Arithmetic.unary_covers op x)
  | power _ x y => exact arithmetic_covers _ (Arithmetic.floatPower_covers x y)
  | _ => exact Or.inr rfl

theorem apply_covers (f : CoreFn) (s : Store) (fuel : Nat) (args : List Value) :
    (∃ e, (f.apply .checked s fuel args).result = .error e ∧ e.IsArithmetic) ∨
      f.apply (.unchecked beyond) s fuel args = f.apply .checked s fuel args := by
  unfold apply
  rcases value?_covers wraps s fuel f args with ⟨e, refused, arithmetic⟩ | same
  · rw [refused]
    exact Or.inl ⟨e, rfl, arithmetic⟩
  · rw [same]
    exact Or.inr rfl

end

end CoreFn

theorem Halt.IsArithmetic.located {e : Error} (h : (Halt.error e).IsArithmetic) (pos : Position) :
    (Halt.error (e.located pos)).IsArithmetic := by
  obtain ⟨fault, at_, eq⟩ := h
  cases eq
  unfold Error.located
  dsimp only
  split
  · exact ⟨fault, pos, rfl⟩
  · exact ⟨fault, at_, rfl⟩

/-- Checked arithmetic on the first side and unchecked arithmetic on the second; the first may be
stopped by arithmetic. -/
def Contract.unchecked (engine : Engine) {beyond : Int → Int → Int}
    (wraps : Arithmetic.WrapsAround beyond) : Contract (engine.inMode .checked) where
  kind := Kind.all
  discipline := Discipline.free (engine.inMode .checked) Kind.all
  mode := .unchecked beyond
  excused := Halt.IsArithmetic
  returning v h := by
    obtain ⟨fault, pos, eq⟩ := h
    cases eq
  breaking h := by
    obtain ⟨fault, pos, eq⟩ := h
    cases eq
  continuing h := by
    obtain ⟨fault, pos, eq⟩ := h
    cases eq
  missing path pos h := by
    obtain ⟨fault, pos, eq⟩ := h
    cases eq
  located _ pos h := h.located pos
  natives m _ := Module.fair_all m
  calculates := CoreFn.apply_covers wraps

/-- The script `let x = 1 << 62; x + (x - 1)`, whose value is the greatest integer. -/
def greatestScript : Script where
  statements := [
    .declare .nowhere false (Text.lit "x") (some (.call .nowhere (Text.lit "<<") []
      [.int .nowhere (Integer.ofNat 1), .int .nowhere (Integer.ofNat 62)] true)),
    .expr .nowhere (.call .nowhere (Text.lit "+") []
      [.var .nowhere (Text.lit "x") [], .call .nowhere (Text.lit "-") []
        [.var .nowhere (Text.lit "x") [], .int .nowhere (Integer.ofNat 1)] true] true)]

def integerEngine : Engine := { globals := Package.install {} (Package.integerOffers .i64) }

def integerOf? : EStateM.Result Halt Stage Value → Option Int
  | .ok (.int .i64 n) _ => some n.val
  | _ => none

end Scripting
