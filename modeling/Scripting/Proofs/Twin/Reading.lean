import Scripting.Proofs.Comparison
import Scripting.Proofs.Twin.Relation

/-
Looking at values with more fuel. Whatever is read off a value, and whatever a native function makes
of its arguments, stays the same with more fuel unless there was too little.
-/
namespace Scripting

def Fuller {α : Type} (r r' : Except Halt α) : Prop := r = .error .outOfFuel ∨ r' = r

namespace Fuller

variable {α β : Type} {r r' : Except Halt α}

theorem refl (r : Except Halt α) : Fuller r r := Or.inr rfl

theorem bind {f f' : α → Except Halt β} (h : Fuller r r') (hf : ∀ a, Fuller (f a) (f' a)) :
    Fuller (r >>= f) (r' >>= f') := by
  rcases h with rfl | rfl
  · exact Or.inl rfl
  · cases r' with
    | ok a => exact hf a
    | error e => exact Or.inr rfl

theorem map (h : Fuller r r') (f : α → β) : Fuller (r.map f) (r'.map f) := by
  rcases h with rfl | rfl
  · exact Or.inl rfl
  · exact Or.inr rfl

theorem mapM {f f' : α → Except Halt β} (h : ∀ a, Fuller (f a) (f' a)) (xs : List α) :
    Fuller (xs.mapM f) (xs.mapM f') := by
  induction xs with
  | nil => exact refl _
  | cons x rest ih =>
    rw [List.mapM_cons, List.mapM_cons]
    exact (h x).bind fun a => ih.bind fun as => refl _

end Fuller

section Values

variable (s : Store) {n k : Nat}

theorem Store.flatten_fuller (le : n ≤ k) (v : Value) : Fuller (s.flatten n v) (s.flatten k v) := by
  induction n generalizing k v with
  | zero => exact Or.inl rfl
  | succ n ih =>
    obtain ⟨k, rfl⟩ : ∃ j, k = j + 1 := ⟨k - 1, by omega⟩
    cases v with
    | shared c => exact (Fuller.refl (s.read c [] .nowhere)).bind fun w => ih (by omega) w
    | _ => exact Or.inr rfl

theorem Store.typeOf_fuller (le : n ≤ k) (v : Value) : Fuller (s.typeOf n v) (s.typeOf k v) := by
  induction n generalizing k v with
  | zero => exact Or.inl rfl
  | succ n ih =>
    obtain ⟨k, rfl⟩ : ∃ j, k = j + 1 := ⟨k - 1, by omega⟩
    cases v with
    | shared c => exact (Fuller.refl (s.read c [] .nowhere)).bind fun w => ih (by omega) w
    | _ => exact Or.inr rfl

namespace Value

theorem debugText_fuller (le : n ≤ k) (v : Value) : Fuller (v.debugText s n) (v.debugText s k) := by
  induction n generalizing k v with
  | zero => exact Or.inl rfl
  | succ n ih =>
    obtain ⟨k, rfl⟩ : ∃ j, k = j + 1 := ⟨k - 1, by omega⟩
    have inner : ∀ w : Value, Fuller (w.debugText s n) (w.debugText s k) := ih (by omega)
    cases v with
    | array items => exact (Fuller.mapM inner items).bind fun _ => Fuller.refl _
    | map entries =>
      refine (Fuller.mapM (fun e => ?_) entries).bind fun _ => Fuller.refl _
      exact (inner e.2).bind fun _ => Fuller.refl _
    | shared c => exact (Fuller.refl (s.read c [] .nowhere)).bind inner
    | _ => exact Or.inr rfl

theorem displayText_fuller (le : n ≤ k) (v : Value) :
    Fuller (v.displayText s n) (v.displayText s k) := by
  induction n generalizing k v with
  | zero => exact Or.inl rfl
  | succ n ih =>
    obtain ⟨k, rfl⟩ : ∃ j, k = j + 1 := ⟨k - 1, by omega⟩
    cases v with
    | array items => exact debugText_fuller s le (.array items)
    | map entries => exact debugText_fuller s le (.map entries)
    | shared c => exact (Fuller.refl (s.read c [] .nowhere)).bind fun w => ih (by omega) w
    | _ => exact Or.inr rfl

end Value

theorem CoreFn.occurs_fuller (le : n ≤ k) (item : Value) (vs : List Value) :
    Fuller (occurs s n item vs) (occurs s k item vs) := by
  by_cases dry : occurs s n item vs = .error .outOfFuel
  · exact Or.inl dry
  · exact Or.inr (occurs_mono dry le)

end Values

def Applied.Fuller (a b : Applied) : Prop := a.result = .error .outOfFuel ∨ b = a

namespace CoreFn

variable (mode : Arithmetic) (s : Store) {n k : Nat}

theorem value?_fuller (le : n ≤ k) (f : CoreFn) (args : List Value) :
    f.value? mode s n args = some (.error .outOfFuel) ∨
      f.value? mode s k args = f.value? mode s n args := by
  have given : ∀ {r r' : Except Halt Value}, Scripting.Fuller r r' →
      some r = some (.error .outOfFuel) ∨ some r' = some r :=
    fun h => h.imp (congrArg some) (congrArg some)
  have looks := value?_looks mode mode s s n k f args
  generalize f.value? mode s n args = r, f.value? mode s k args = r' at looks
  cases looks with
  | display v => exact given ((Value.displayText_fuller s le v).map _)
  | debug v => exact given ((Value.debugText_fuller s le v).map _)
  | concat v w =>
    exact given ((Value.displayText_fuller s le v).bind fun _ =>
      (Value.displayText_fuller s le w).bind fun _ => Scripting.Fuller.refl _)
  | contains xs v => exact given ((occurs_fuller s le v xs).map _)
  | _ => exact Or.inr rfl

theorem change?_fuller (le : n ≤ k) (f : CoreFn) (args : List Value) :
    (∃ a, f.change? s n args = some a ∧ a.result = .error .outOfFuel) ∨
      f.change? s k args = f.change? s n args := by
  unfold change?
  split
  case h_1 t v =>
    rcases Value.displayText_fuller s le v with dry | same
    · rw [dry]
      exact Or.inl ⟨_, rfl, rfl⟩
    · rw [same]
      exact Or.inr rfl
  all_goals exact Or.inr rfl

theorem apply_fuller (le : n ≤ k) (f : CoreFn) (args : List Value) :
    (f.apply mode s n args).Fuller (f.apply mode s k args) := by
  unfold apply
  rcases value?_fuller mode s le f args with dry | same
  · rw [dry]
    exact Or.inl rfl
  · rw [same]
    cases f.value? mode s n args with
    | some r => exact Or.inr rfl
    | none =>
      rcases change?_fuller s le f args with ⟨a, changed, dry⟩ | same
      · rw [changed]
        exact Or.inl dry
      · rw [same]
        exact Or.inr rfl

end CoreFn

namespace HostFn

variable (s : Store) {n k : Nat}

theorem integerItem_fuller (le : n ≤ k) (items : List Value) (i : Nat) :
    Fuller (integerItem s n items i) (integerItem s k items i) := by
  unfold integerItem
  cases items[i]? with
  | none => exact Or.inr rfl
  | some v => exact (s.flatten_fuller le v).bind fun _ => Fuller.refl _

theorem setPair_fuller (le : n ≤ k) (y x : Integer) (items : List Value) :
    (setPair s n y x items).2 = .error .outOfFuel ∨ setPair s k y x items = setPair s n y x items := by
  unfold setPair
  rcases integerItem_fuller s le items 0 with dry | same
  · rw [dry]
    exact Or.inl rfl
  · rw [same]
    cases integerItem s n items 0 with
    | error e => exact Or.inr rfl
    | ok x =>
      rcases integerItem_fuller s le items 1 with dry | same
      · rw [dry]
        exact Or.inl rfl
      · rw [same]
        exact Or.inr rfl

theorem apply_fuller (le : n ≤ k) (f : HostFn) (args : List Value) :
    (f.apply s n args).Fuller (f.apply s k args) := by
  have acts := apply_acts s s n k f args
  generalize f.apply s n args = a, f.apply s k args = b at acts
  cases acts with
  | @pair x y items _ =>
    rcases setPair_fuller s le y x items with dry | same
    · exact Or.inl dry
    · rw [same]
      exact Or.inr rfl
  | _ => exact Or.inr rfl

end HostFn

theorem Native.apply_fuller (mode : Arithmetic) {n k : Nat} (le : n ≤ k) (f : Native) (s : Store)
    (args : List Value) : (f.apply mode n s args).Fuller (f.apply mode k s args) := by
  cases f with
  | core f => exact f.apply_fuller mode s le args
  | host f => exact f.apply_fuller s le args
  | tagged tag => exact Or.inr rfl

end Scripting
