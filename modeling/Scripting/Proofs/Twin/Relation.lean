import Scripting.Proofs.Access.Reading
import Scripting.Proofs.Code
import Scripting.Proofs.Contract.Agree
import Scripting.Proofs.Frame

/-
Twin runs: two runs of the same code, of which the second has at least as much fuel and may have counted
other numbers of operations. They end alike, unless the first runs out of fuel or a limit on the
number of operations stops one of them. On the way, what exports nothing leaves the marks of exported
variables as they are.
-/
namespace Scripting

def Rule.exportless : Rule
  | _, .stmt (.exportNames ..) => False
  | _, _ => True

def Code.Exportless (c : Code) : Prop := ∃ looping, Obeys Rule.exportless looping c

theorem Code.Exportless.parts {c p : Code} (h : c.Exportless) (part : p ∈ c.parts) : p.Exportless := by
  obtain ⟨looping, obeys⟩ := h
  exact ⟨looping, obeys.parts p part⟩

theorem Code.Exportless.turns {c p : Code} (h : c.Exportless) (turn : p ∈ c.turns) : p.Exportless := by
  obtain ⟨looping, obeys⟩ := h
  exact ⟨true, obeys.turns p turn⟩

def Scope.marks (s : Scope) : List (Option Text) := s.map Entry.exported

theorem Scope.marks_setValue (s : Scope) (name : Text) (v : Value) :
    Scope.marks (s.setValue name v) = s.marks := by
  induction s with
  | nil => rfl
  | cons e rest ih =>
    unfold marks setValue at ih ⊢
    by_cases same : e.name = name
    · simp [modify, same]
    · simp [modify, same, ih]

/-- Two results side by side: alike, or nothing is known because a run was cut short. The states after
runs that end alike are in the relation `rel`. -/
inductive Match {σ α : Type} (stops : Halt → Prop) (rel : σ → σ → Prop) :
    EStateM.Result Halt σ α → EStateM.Result Halt σ α → Prop where
  | ok {a : α} {s s' : σ} (h : rel s s') : Match stops rel (.ok a s) (.ok a s')
  | error {e : Halt} {s s' : σ} (h : rel s s') : Match stops rel (.error e s) (.error e s')
  /-- The first run has no fuel left. -/
  | spent {s : σ} {r : EStateM.Result Halt σ α} : Match stops rel (.error .outOfFuel s) r
  /-- The first run is stopped. -/
  | stopped {e : Halt} {s : σ} {r : EStateM.Result Halt σ α} (h : stops e) :
      Match stops rel (.error e s) r
  /-- The second run is stopped. -/
  | halted {e : Halt} {s : σ} {r : EStateM.Result Halt σ α} (h : stops e) :
      Match stops rel r (.error e s)

namespace Match

variable {σ τ α β : Type} {stops : Halt → Prop} {rel : σ → σ → Prop}

theorem mono {rel' : σ → σ → Prop} {r r' : EStateM.Result Halt σ α} (h : Match stops rel r r')
    (weaker : ∀ s s', rel s s' → rel' s s') : Match stops rel' r r' := by
  cases h with
  | ok h => exact .ok (weaker _ _ h)
  | error h => exact .error (weaker _ _ h)
  | spent => exact .spent
  | stopped h => exact .stopped h
  | halted h => exact .halted h

/-- What comes after both runs. A run that was cut short stays so. -/
theorem handle {rel' : τ → τ → Prop} {f g : EStateM.Result Halt σ α → EStateM.Result Halt τ β}
    {r r' : EStateM.Result Halt σ α} (h : Match stops rel r r')
    (ok : ∀ a s s', rel s s' → Match stops rel' (f (.ok a s)) (g (.ok a s')))
    (error : ∀ e s s', rel s s' → Match stops rel' (f (.error e s)) (g (.error e s')))
    (spent : ∀ s, ∃ t, f (.error .outOfFuel s) = .error .outOfFuel t)
    (stop : ∀ e s, stops e → ∃ e' t, f (.error e s) = .error e' t ∧ stops e')
    (stop' : ∀ e s, stops e → ∃ e' t, g (.error e s) = .error e' t ∧ stops e') :
    Match stops rel' (f r) (g r') := by
  cases h with
  | ok h => exact ok _ _ _ h
  | error h => exact error _ _ _ h
  | @spent s _ =>
    obtain ⟨t, eq⟩ := spent s
    rw [eq]
    exact .spent
  | @stopped e s _ h =>
    obtain ⟨e', t, eq, still⟩ := stop e s h
    rw [eq]
    exact .stopped still
  | @halted e s _ h =>
    obtain ⟨e', t, eq, still⟩ := stop' e s h
    rw [eq]
    exact .halted still

theorem map {rel' : τ → τ → Prop} {f g : σ → τ} {r r' : EStateM.Result Halt σ α}
    (h : Match stops rel r r') (later : ∀ s s', rel s s' → rel' (f s) (g s')) :
    Match stops rel' (inState f r) (inState g r') := by
  cases h with
  | ok h => exact .ok (later _ _ h)
  | error h => exact .error (later _ _ h)
  | spent => exact .spent
  | stopped h => exact .stopped h
  | halted h => exact .halted h

theorem bind {rel' : σ → σ → Prop} {k k' : EStateM Halt σ α} {f f' : α → EStateM Halt σ β} {s s' : σ}
    (hk : Match stops rel (k s) (k' s'))
    (hf : ∀ a t t', k s = .ok a t → rel t t' → Match stops rel' (f a t) (f' a t'))
    (weaker : ∀ t t', rel t t' → rel' t t') :
    Match stops rel' ((k >>= f) s) ((k' >>= f') s') := by
  change Match stops rel' (EStateM.bind k f s) (EStateM.bind k' f' s')
  unfold EStateM.bind
  generalize k s = r at hk hf ⊢
  generalize k' s' = r' at hk ⊢
  cases hk with
  | ok h => exact hf _ _ _ rfl h
  | error h => exact .error (weaker _ _ h)
  | spent => exact .spent
  | stopped h => exact .stopped h
  | halted h => exact .halted h

end Match

namespace Engine

variable (engine : Engine)

def Stops : Halt → Prop
  | .error ⟨.tooManyOperations, _⟩ => 0 < engine.limits.operations
  | .error ⟨.terminated, _⟩ => ∃ stop, engine.progress = some stop ∧ 0 < stop
  | _ => False

end Engine

/-- States that twin runs may be in at the same moment, and the marks of the variables in them. -/
class Twins (σ : Type) where
  twin : σ → σ → Prop
  marks : σ → List (Option Text)

instance : Twins Machine where
  twin := Machine.Counted
  marks m := m.scope.marks

instance {φ : Type} : Twins (φ × Machine) where
  twin s s' := s'.1 = s.1 ∧ s.2.Counted s'.2
  marks s := s.2.scope.marks

structure Twins.Later {σ : Type} [Twins σ] (quiet : Prop) (s t t' : σ) : Prop where
  twin : Twins.twin t t'
  marks : quiet → Twins.marks s <:+ Twins.marks t

theorem Twins.Later.trans {σ : Type} [Twins σ] {quiet : Prop} {s t t' u u' : σ}
    (h : Later quiet s t t') (h' : Later quiet t u u') : Later quiet s u u' :=
  ⟨h'.twin, fun yes => (h.marks yes).trans (h'.marks yes)⟩

/-- Twin runs from any states; if they are to be quiet, they keep the marks of exported variables. -/
def Goes (engine : Engine) {σ α : Type} [Twins σ] (quiet : Prop) (k k' : EStateM Halt σ α) : Prop :=
  ∀ s s', Twins.twin s s' → Match engine.Stops (Twins.Later quiet s) (k s) (k' s')

namespace Goes

open Twins

variable {engine : Engine} {quiet : Prop} {σ α β φ ψ : Type} [Twins σ]

theorem give (a : α) : Goes engine (σ := σ) quiet (pure a) (pure a) :=
  fun _ _ twin => .ok ⟨twin, fun _ => List.suffix_refl _⟩

theorem stop (h : Halt) : Goes engine (σ := σ) (α := α) quiet (throw h) (throw h) :=
  fun _ _ twin => .error ⟨twin, fun _ => List.suffix_refl _⟩

theorem spent (k : EStateM Halt σ α) : Goes engine quiet (throw .outOfFuel) k :=
  fun _ _ _ => .spent

theorem mono {quiet' : Prop} {k k' : EStateM Halt σ α} (h : Goes engine quiet k k')
    (weaker : quiet' → quiet) : Goes engine quiet' k k' :=
  fun s s' twin => (h s s' twin).mono fun _ _ later => ⟨later.twin, fun yes => later.marks (weaker yes)⟩

theorem bind_given {Q : α → Prop} {k k' : EStateM Halt σ α} {f f' : α → EStateM Halt σ β}
    (hk : Goes engine quiet k k') (given : Gives Q k)
    (hf : ∀ a, Q a → Goes engine quiet (f a) (f' a)) : Goes engine quiet (k >>= f) (k' >>= f') := by
  intro s s' twin
  refine Match.bind (hk s s' twin) (fun a t t' ran later => ?_) fun _ _ later => later
  have ha : Q a := by
    have ends := given s
    rwa [ran] at ends
  exact (hf a ha t t' later.twin).mono fun _ _ last => later.trans last

theorem bind {k k' : EStateM Halt σ α} {f f' : α → EStateM Halt σ β} (hk : Goes engine quiet k k')
    (hf : ∀ a, Goes engine quiet (f a) (f' a)) : Goes engine quiet (k >>= f) (k' >>= f') :=
  bind_given hk (Gives.whatever k) fun a _ => hf a

theorem get_bind_at {f f' : σ → EStateM Halt σ β}
    (hf : ∀ s s', twin s s' → Match engine.Stops (Later quiet s) (f s s) (f' s' s')) :
    Goes engine quiet (get >>= f) (get >>= f') := hf

theorem get_bind {f f' : σ → EStateM Halt σ β}
    (hf : ∀ s s', twin s s' → Goes engine quiet (f s) (f' s')) :
    Goes engine quiet (get >>= f) (get >>= f') :=
  fun s s' twin => hf s s' twin s s' twin

theorem change {f f' : σ → σ}
    (h : ∀ s s', twin s s' → twin (f s) (f' s') ∧ (quiet → marks s <:+ marks (f s))) :
    Goes engine quiet (modify f : EStateM Halt σ PUnit) (modify f') :=
  fun s s' twin => .ok ⟨(h s s' twin).1, (h s s' twin).2⟩

/-- A computation on values alone, in which the second run may get further. -/
theorem look {r r' : Except Halt α} (h : r = .error .outOfFuel ∨ r' = r) :
    Goes engine (σ := σ) quiet (liftM r) (liftM r') := by
  rcases h with rfl | rfl
  · exact spent _
  · cases r' with
    | ok a => exact give a
    | error e => exact stop e

theorem mapM {γ : Type} {f f' : γ → EStateM Halt σ α} {xs : List γ}
    (h : ∀ x ∈ xs, Goes engine quiet (f x) (f' x)) : Goes engine quiet (xs.mapM f) (xs.mapM f') := by
  induction xs with
  | nil => exact give []
  | cons x rest ih =>
    rw [List.mapM_cons, List.mapM_cons]
    refine bind (h x List.mem_cons_self) fun a => ?_
    exact bind (ih fun y hy => h y (List.mem_cons_of_mem _ hy)) fun as => give (a :: as)

section Held

variable {k k' : Held φ α}

theorem held : Goes engine quiet (Held.held : Held φ φ) Held.held := by
  rintro ⟨x, m⟩ ⟨_, m'⟩ ⟨rfl, counted⟩
  exact .ok ⟨⟨rfl, counted⟩, fun _ => List.suffix_refl _⟩

theorem setHeld (x : φ) : Goes engine quiet (Held.setHeld x) (Held.setHeld x) := by
  rintro ⟨y, m⟩ ⟨_, m'⟩ ⟨-, counted⟩
  exact .ok ⟨⟨rfl, counted⟩, fun _ => List.suffix_refl _⟩

theorem lift {k k' : Run α} (h : Goes engine quiet k k') :
    Goes engine quiet (Held.lift k : Held φ α) (Held.lift k') := by
  rintro ⟨x, m⟩ ⟨x', m'⟩ ⟨same, counted⟩
  obtain rfl : x' = x := same
  rw [Held.lift_eq, Held.lift_eq]
  exact (h m m' counted).map fun n n' later => ⟨⟨rfl, later.twin⟩, later.marks⟩

theorem drop (h : Goes engine quiet k k') (x : φ) :
    Goes engine quiet (Held.drop x k) (Held.drop x k') := by
  intro m m' counted
  rw [Held.drop_eq, Held.drop_eq]
  exact (h (x, m) (x, m') ⟨rfl, counted⟩).map fun s s' later => ⟨later.twin.2, later.marks⟩

theorem zoom (h : Goes engine quiet k k') (x : φ) (restore : φ → ψ → ψ) :
    Goes engine quiet (Held.zoom x restore k) (Held.zoom x restore k') := by
  rintro ⟨y, m⟩ ⟨y', m'⟩ ⟨same, counted⟩
  obtain rfl : y' = y := same
  rw [Held.zoom_eq, Held.zoom_eq]
  refine (h (x, m) (x, m') ⟨rfl, counted⟩).map fun s s' later => ⟨⟨?_, later.twin.2⟩, later.marks⟩
  exact congrArg (restore · y') later.twin.1

/-- Putting a part back into the machine must not show how many operations there were, nor touch the
marks. -/
theorem ofMachine (h : Goes engine quiet k k') (x : φ) (restore : φ → Machine → Machine)
    (hrestore : ∀ y m m', m.Counted m' → (restore y m).Counted (restore y m') ∧
      (restore y m).scope.marks = m.scope.marks) :
    Goes engine quiet (Held.ofMachine x restore k) (Held.ofMachine x restore k') := by
  intro m m' counted
  rw [Held.ofMachine_eq, Held.ofMachine_eq]
  refine (h (x, m) (x, m') ⟨rfl, counted⟩).map fun s s' later => ?_
  obtain ⟨y, n⟩ := s
  obtain ⟨_, n'⟩ := s'
  obtain ⟨⟨rfl, counted⟩, marks⟩ := later
  obtain ⟨twin, same⟩ := hrestore _ n n' counted
  refine ⟨twin, fun yes => ?_⟩
  change m.scope.marks <:+ (restore _ n).scope.marks
  rw [same]
  exact marks yes

end Held

section Places

variable {k k' : Held Value α} (h : Goes engine quiet k k')
include h

theorem onVariable (name : Text) (v : Value) :
    Goes engine quiet (Run.onVariable name v k) (Run.onVariable name v k') := by
  refine ofMachine h v _ fun w m _ counted => ?_
  obtain ⟨operations, progress, rfl⟩ := counted
  exact ⟨⟨operations, progress, rfl⟩, m.scope.marks_setValue name w⟩

theorem onThis (v : Value) : Goes engine quiet (Run.onThis v k) (Run.onThis v k') := by
  refine ofMachine h v _ fun w m _ counted => ?_
  obtain ⟨operations, progress, rfl⟩ := counted
  exact ⟨⟨operations, progress, rfl⟩, rfl⟩

theorem ofCell (c : Nat) (name : Text) (pos : Position) :
    Goes engine quiet (Held.ofCell c name pos k) (Held.ofCell c name pos k') := by
  rintro m m' counted
  have same : m'.store.beginWrite c name pos = m.store.beginWrite c name pos := by
    obtain ⟨_, _, rfl⟩ := counted
    rfl
  cases taken : m.store.beginWrite c name pos with
  | error e =>
    rw [Held.ofCell_refused taken, Held.ofCell_refused (same.trans taken)]
    exact .error ⟨counted, fun _ => List.suffix_refl _⟩
  | ok s =>
    rw [Held.ofCell_eq taken, Held.ofCell_eq (same.trans taken)]
    have inside : (m.withStore s).Counted (m'.withStore s) := by
      obtain ⟨operations, progress, rfl⟩ := counted
      exact ⟨operations, progress, rfl⟩
    have worked := h ((s.cell c).value, m.withStore s) ((s.cell c).value, m'.withStore s) ⟨rfl, inside⟩
    refine worked.map fun t t' later => ?_
    obtain ⟨⟨held, operations, progress, same⟩, marks⟩ := later
    refine ⟨⟨operations, progress, ?_⟩, marks⟩
    rw [held, same]
    rfl

theorem behind (name : Text) (pos : Position) :
    Goes engine quiet (Held.behind name pos k) (Held.behind name pos k') := by
  refine bind held fun v => ?_
  cases v with
  | shared c => exact lift (ofCell h c name pos)
  | _ => exact h

end Places

/-- What is declared in a block is gone afterwards, and with it how it is exported. -/
theorem block {k k' : Run α} (h : Goes engine quiet k k') :
    Goes engine quiet (Run.block k) (Run.block k') := by
  rintro m _ ⟨operations, progress, rfl⟩
  rw [Run.block_eq, Run.block_eq]
  refine (h m _ ⟨operations, progress, rfl⟩).map fun n n' later => ?_
  obtain ⟨⟨operations, progress, rfl⟩, marks⟩ := later
  refine ⟨⟨operations, progress, rfl⟩, fun yes => ?_⟩
  have older := List.suffix_iff_eq_drop.mp (marks yes)
  change m.scope.map Entry.exported <:+ (n.scope.drop (n.scope.length - m.scope.length)).map Entry.exported
  have lengths : (Twins.marks n).length = n.scope.length ∧ (Twins.marks m).length = m.scope.length :=
    ⟨List.length_map _, List.length_map _⟩
  rw [lengths.1, lengths.2] at older
  rw [List.map_drop]
  exact older ▸ List.suffix_refl _

end Goes

end Scripting
