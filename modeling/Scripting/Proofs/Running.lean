import Scripting.Machine

/-
Running a computation from a known state: what a composed computation does, from what its parts do.
-/
namespace Scripting

section

variable {ε σ α β : Type} {p : EStateM ε σ α} {s t : σ} {a : α} {e : ε}

theorem bind_of_ok (h : p s = .ok a t) (f : α → EStateM ε σ β) : (p >>= f) s = f a t := by
  change EStateM.bind p f s = _
  simp only [EStateM.bind, h]

theorem bind_of_error (h : p s = .error e t) (f : α → EStateM ε σ β) :
    (p >>= f) s = .error e t := by
  change EStateM.bind p f s = _
  simp only [EStateM.bind, h]

theorem bind_cases {f : α → EStateM ε σ β} {b : β} {u : σ} (h : (p >>= f) s = .ok b u) :
    ∃ a t, p s = .ok a t ∧ f a t = .ok b u := by
  cases ran : p s with
  | ok a t =>
    rw [bind_of_ok ran] at h
    exact ⟨a, t, rfl, h⟩
  | error e t =>
    rw [bind_of_error ran] at h
    cases h

theorem map_of_ok (h : p s = .ok a t) (f : α → β) : (f <$> p) s = .ok (f a) t := by
  change EStateM.map f p s = _
  simp only [EStateM.map, h]

theorem map_of_error (h : p s = .error e t) (f : α → β) : (f <$> p) s = .error e t := by
  change EStateM.map f p s = _
  simp only [EStateM.map, h]

end

/-! Looking at the state of a parse leaves it as it is. -/

namespace Grammar

theorem get_ok (s : State) : (get : Parse State) s = .ok s s := rfl

theorem current_ok (s : State) : current s = .ok s.current.1 s := rfl

theorem currentPos_ok (s : State) : currentPos s = .ok s.current.2 s := rfl

theorem atEnd_ok (s : State) : atEnd s = .ok s.current.1.isEof s := rfl

theorem remaining_ok (s : State) : remaining s = .ok s.rest.length s := rfl

end Grammar

/-! What works on a part of the machine, or in a block, does nothing to the result of the work but put
the state that came with it back in its place. -/

def inState {σ τ α : Type} (f : σ → τ) : EStateM.Result Halt σ α → EStateM.Result Halt τ α
  | .ok a s => .ok a (f s)
  | .error e s => .error e (f s)

theorem inState_cases {σ τ α : Type} {f : σ → τ} {r : EStateM.Result Halt σ α} {a : α} {t : τ}
    (h : inState f r = .ok a t) : ∃ s, r = .ok a s ∧ t = f s := by
  cases r with
  | ok b s =>
    cases h
    exact ⟨s, rfl, rfl⟩
  | error e s => cases h

theorem inState_inState {σ τ υ α : Type} (g : τ → υ) (f : σ → τ) (r : EStateM.Result Halt σ α) :
    inState g (inState f r) = inState (fun s => g (f s)) r := by
  cases r <;> rfl

namespace Held

variable {φ ψ α : Type} {m : Machine}

theorem lift_eq (m : Machine) (k : Run α) (x : φ) :
    lift k (x, m) = inState (fun n => (x, n)) (k m) := by
  unfold lift inState
  dsimp only
  cases k m <;> rfl

theorem drop_eq (m : Machine) (k : Held φ α) (x : φ) :
    drop x k m = inState Prod.snd (k (x, m)) := by
  unfold drop inState
  cases k (x, m) <;> rfl

theorem zoom_eq (m : Machine) (k : Held ψ α) (part : ψ) (restore : ψ → φ → φ) (x : φ) :
    zoom part restore k (x, m) = inState (fun s => (restore s.1 x, s.2)) (k (part, m)) := by
  unfold zoom inState
  dsimp only
  cases k (part, m) <;> rfl

theorem ofMachine_eq (m : Machine) (k : Held φ α) (part : φ) (restore : φ → Machine → Machine) :
    ofMachine part restore k m = inState (fun s => restore s.1 s.2) (k (part, m)) := by
  unfold ofMachine inState
  cases k (part, m) <;> rfl

theorem ofCell_eq {c : Nat} {name : Text} {pos : Position} {s : Store}
    (taken : m.store.beginWrite c name pos = .ok s) (k : Held Value α) :
    ofCell c name pos k m =
      inState (fun t => t.2.withStore ((t.2.store.setValue c t.1).endWrite c))
        (k ((s.cell c).value, m.withStore s)) := by
  unfold ofCell
  rw [taken]
  exact ofMachine_eq _ k _ _

theorem ofCell_refused {c : Nat} {name : Text} {pos : Position} {h : Halt}
    (refused : m.store.beginWrite c name pos = .error h) (k : Held Value α) :
    ofCell c name pos k m = .error h m := by
  unfold ofCell
  rw [refused]

end Held

namespace Run

variable {α : Type} (m : Machine)

theorem block_eq (k : Run α) :
    block k m = inState (fun n => n.rewind m.scope.length m.imports.length) (k m) := by
  unfold block inState
  cases k m <;> rfl

theorem onVariable_eq (name : Text) (v : Value) (k : Held Value α) :
    onVariable name v k m =
      inState (fun s => { s.2 with scope := s.2.scope.setValue name s.1 }) (k (v, m)) :=
  Held.ofMachine_eq m k v _

theorem onThis_eq (v : Value) (k : Held Value α) :
    onThis v k m = inState (fun s => { s.2 with this := some s.1 }) (k (v, m)) :=
  Held.ofMachine_eq m k v _

end Run

def Terminates {σ α : Type} (r : Nat → EStateM.Result Halt σ α) : Prop :=
  ∃ out least, (∀ t, out ≠ .error .outOfFuel t) ∧ ∀ fuel, least ≤ fuel → r fuel = out

namespace Terminates

variable {σ τ α β : Type}

theorem const {out : EStateM.Result Halt σ α} (fueled : ∀ t, out ≠ .error .outOfFuel t) :
    Terminates fun _ => out :=
  ⟨out, 0, fueled, fun _ _ => rfl⟩

theorem handle {r : Nat → EStateM.Result Halt σ α}
    {f : Nat → EStateM.Result Halt σ α → EStateM.Result Halt τ β} (h : Terminates r)
    (hf : ∀ out fuel, r fuel = out → (∀ t, out ≠ .error .outOfFuel t) →
      Terminates fun fuel => f fuel out) : Terminates fun fuel => f fuel (r fuel) := by
  obtain ⟨out, first, fueled, same⟩ := h
  obtain ⟨out', second, fueled', same'⟩ := hf out first (same first (Nat.le_refl _)) fueled
  refine ⟨out', max first second, fueled', ?_⟩
  intro fuel enough
  have ran : r fuel = out := same fuel (by omega)
  dsimp only
  rw [ran]
  exact same' fuel (by omega)

theorem later {r : Nat → EStateM.Result Halt σ α} (h : Terminates r) (k : Nat) :
    Terminates fun fuel => r (fuel + k) := by
  obtain ⟨out, least, fueled, same⟩ := h
  exact ⟨out, least, fueled, fun fuel enough => same (fuel + k) (by omega)⟩

theorem sooner {r : Nat → EStateM.Result Halt σ α} (k : Nat)
    (h : Terminates fun fuel => r (fuel + k)) : Terminates r := by
  obtain ⟨out, least, fueled, same⟩ := h
  refine ⟨out, least + k, fueled, fun fuel enough => ?_⟩
  obtain ⟨more, rfl⟩ : ∃ more, fuel = more + k := ⟨fuel - k, by omega⟩
  exact same more (by omega)

end Terminates

namespace Held

variable {φ ψ α : Type} {m n : Machine} {a : α} {h : Halt}

theorem lift_of_ok {k : Run α} (ran : k m = .ok a n) (x : φ) : lift k (x, m) = .ok a (x, n) := by
  simp only [lift, ran]

theorem lift_of_error {k : Run α} (ran : k m = .error h n) (x : φ) :
    lift k (x, m) = .error h (x, n) := by
  simp only [lift, ran]

theorem drop_of_ok {k : Held φ α} {x y : φ} (ran : k (x, m) = .ok a (y, n)) :
    drop x k m = .ok a n := by
  simp only [drop, ran]

theorem drop_of_error {k : Held φ α} {x y : φ} (ran : k (x, m) = .error h (y, n)) :
    drop x k m = .error h n := by
  simp only [drop, ran]

theorem zoom_of_ok {k : Held ψ α} {part part' : ψ} (ran : k (part, m) = .ok a (part', n))
    (restore : ψ → φ → φ) (x : φ) : zoom part restore k (x, m) = .ok a (restore part' x, n) := by
  simp only [zoom, ran]

theorem zoom_of_error {k : Held ψ α} {part part' : ψ} (ran : k (part, m) = .error h (part', n))
    (restore : ψ → φ → φ) (x : φ) : zoom part restore k (x, m) = .error h (restore part' x, n) := by
  simp only [zoom, ran]

theorem ofMachine_of_ok {k : Held φ α} {part part' : φ} (ran : k (part, m) = .ok a (part', n))
    (restore : φ → Machine → Machine) : ofMachine part restore k m = .ok a (restore part' n) := by
  simp only [ofMachine, ran]

theorem ofMachine_of_error {k : Held φ α} {part part' : φ}
    (ran : k (part, m) = .error h (part', n)) (restore : φ → Machine → Machine) :
    ofMachine part restore k m = .error h (restore part' n) := by
  simp only [ofMachine, ran]

variable {β : Type} (f : α → β)

theorem lift_map (k : Run α) (x : φ) (m : Machine) :
    lift (f <$> k) (x, m) = (f <$> lift k) (x, m) := by
  cases ran : k m with
  | ok a n => rw [map_of_ok (lift_of_ok ran x), lift_of_ok (map_of_ok ran f)]
  | error h n => rw [map_of_error (lift_of_error ran x), lift_of_error (map_of_error ran f)]

theorem drop_map (k : Held φ α) (x : φ) (m : Machine) :
    drop x (f <$> k) m = (f <$> drop x k) m := by
  cases ran : k (x, m) with
  | ok a s => rw [map_of_ok (drop_of_ok ran), drop_of_ok (map_of_ok ran f)]
  | error h s => rw [map_of_error (drop_of_error ran), drop_of_error (map_of_error ran f)]

theorem zoom_map (k : Held ψ α) (part : ψ) (restore : ψ → φ → φ) (x : φ) (m : Machine) :
    zoom part restore (f <$> k) (x, m) = (f <$> zoom part restore k) (x, m) := by
  cases ran : k (part, m) with
  | ok a s => rw [map_of_ok (zoom_of_ok ran restore x), zoom_of_ok (map_of_ok ran f)]
  | error h s => rw [map_of_error (zoom_of_error ran restore x), zoom_of_error (map_of_error ran f)]

theorem ofMachine_map (k : Held φ α) (part : φ) (restore : φ → Machine → Machine) (m : Machine) :
    ofMachine part restore (f <$> k) m = (f <$> ofMachine part restore k) m := by
  cases ran : k (part, m) with
  | ok a s => rw [map_of_ok (ofMachine_of_ok ran restore), ofMachine_of_ok (map_of_ok ran f)]
  | error h s =>
    rw [map_of_error (ofMachine_of_error ran restore), ofMachine_of_error (map_of_error ran f)]

theorem ofCell_map (k : Held Value α) (c : Nat) (name : Text) (pos : Position) :
    ofCell c name pos (f <$> k) = f <$> ofCell c name pos k := by
  funext m
  cases free : m.store.beginWrite c name pos with
  | error h => rw [map_of_error (ofCell_refused free k), ofCell_refused free]
  | ok s =>
    rw [ofCell_eq free]
    cases ran : k ((s.cell c).value, m.withStore s) with
    | ok a t =>
      rw [map_of_ok ran, map_of_ok ((ofCell_eq free k).trans (congrArg _ ran))]
      rfl
    | error h t =>
      rw [map_of_error ran, map_of_error ((ofCell_eq free k).trans (congrArg _ ran))]
      rfl

theorem behind_map (k : Held Value α) (name : Text) (pos : Position) :
    behind name pos (f <$> k) = f <$> behind name pos k := by
  funext s
  obtain ⟨v, m⟩ := s
  have alone (v : Value) (h : ∀ {γ : Type} (k : Held Value γ), behind name pos k (v, m) = k (v, m)) :
      behind name pos (f <$> k) (v, m) = (f <$> behind name pos k) (v, m) := by
    rw [h]
    change EStateM.map f k _ = EStateM.map f _ _
    simp only [EStateM.map, h]
  cases v with
  | shared c =>
    change lift (ofCell c name pos (f <$> k)) (Value.shared c, m) =
      EStateM.map f (behind name pos k) (Value.shared c, m)
    rw [ofCell_map, lift_map]
    rfl
  | _ => exact alone _ fun _ => rfl

end Held

end Scripting
