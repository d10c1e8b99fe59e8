import Scripting.Proofs.Contract.Agree
import Scripting.Proofs.Regime.Sound

/-
What an evaluation under a regime does: from a sound machine it leads to a sound machine, or it
fails because something got too large. A body may also be left by what it contains; a call never is.
-/
namespace Scripting

def Halt.isTooLarge : Halt → Bool
  | .error ⟨.dataTooLarge .., _⟩ => true
  | _ => false

/-- From where something is left: from a call as a whole, or from the code of a body, inside or
outside of a loop of it. -/
inductive Way where
  | call
  | body (looping : Bool)

namespace Regime

variable {engine : Engine} (R : Regime engine)

def allows : Way → Halt → Prop
  | _, .error _ => True
  | _, .outOfFuel => True
  | .body _, .returning v => R.plain v
  | .body looping, .breaking => looping = true
  | .body looping, .continuing => looping = true
  | .call, _ => False

def spoils (h : Halt) : Prop := h.isTooLarge = true ∧ ¬ ∀ v, R.plain v

abbrev After {α : Type} (way : Way) (Q : α → Prop) : EStateM.Result Halt Machine α → Prop :=
  Ends (fun a n => n.Sound R ∧ Q a)
    (fun h n => R.allows way h ∧ (R.spoils h ∨ n.Sound R))

def Does {α : Type} (way : Way) (Q : α → Prop) (k : Run α) : Prop :=
  ∀ m, m.Sound R → R.After way Q (k m)

abbrev Holding {φ α : Type} (way : Way) (P : φ → Prop) (Q : α → Prop) :
    EStateM.Result Halt (φ × Machine) α → Prop :=
  Ends (fun a s => P s.1 ∧ s.2.Sound R ∧ Q a)
    (fun h s => R.allows way h ∧ (R.spoils h ∨ P s.1 ∧ s.2.Sound R))

def Holds {φ α : Type} (way : Way) (P : φ → Prop) (Q : α → Prop) (k : Held φ α) : Prop :=
  ∀ x m, m.Sound R → P x → R.Holding way P Q (k (x, m))

def Works {φ α : Type} (way : Way) (kept : Prop) (P : φ → Prop) (Q : α → Prop) (k : Held φ α) : Prop :=
  ∀ x m, m.Sound R → P x → R.Holding way (fun y => kept → P y) Q (k (x, m))

variable {R} {way : Way} {kept : Prop} {α β φ ψ : Type} {P : φ → Prop} {Q : α → Prop} {S : β → Prop}

theorem allows_fault {h : Halt} (fault : h.isFault = true) : R.allows way h := by
  cases h with
  | error e => cases way <;> trivial
  | outOfFuel => cases way <;> trivial
  | _ => cases fault

theorem fault_of_call {h : Halt} (allowed : R.allows .call h) : h.isFault = true := by
  cases h with
  | error e => rfl
  | outOfFuel => rfl
  | _ => exact allowed.elim

theorem allows_of_call {h : Halt} (allowed : R.allows .call h) : R.allows way h :=
  allows_fault (fault_of_call allowed)

namespace Does

theorem give {a : α} (h : Q a) : R.Does way Q (pure a) := by
  intro m hm
  exact ⟨hm, h⟩

theorem stop {h : Halt} (allowed : R.allows way h) : R.Does way Q (throw h) := by
  intro m hm
  exact ⟨allowed, Or.inr hm⟩

theorem fail (cause : Cause) (pos : Position) : R.Does way Q (Run.fail cause pos) :=
  stop (allows_fault rfl)

theorem imp {Q' : α → Prop} {k : Run α} (h : R.Does way Q k) (weaker : ∀ a, Q a → Q' a) :
    R.Does way Q' k := by
  intro m hm
  exact (h m hm).mono (fun a n hn => ⟨hn.1, weaker a hn.2⟩) (fun _ _ hn => hn)

theorem ofCall {k : Run α} (h : R.Does .call Q k) : R.Does way Q k := by
  intro m hm
  exact (h m hm).mono (fun _ _ hn => hn) (fun _ _ hn => ⟨allows_of_call hn.1, hn.2⟩)

theorem bind {k : Run α} {f : α → Run β} (hk : R.Does way Q k)
    (hf : ∀ a, Q a → R.Does way S (f a)) : R.Does way S (k >>= f) := by
  intro m hm
  refine Ends.bind ((hk m hm).mono ?_ fun _ _ hn => hn)
  intro a n hn
  exact hf a hn.2 n hn.1

theorem get_bind {f : Machine → Run β} (hf : ∀ m, m.Sound R → R.After way S (f m m)) :
    R.Does way S (get >>= f) := by
  intro m hm
  exact hf m hm

theorem change {f : Machine → Machine} (h : ∀ m, m.Sound R → (f m).Sound R) :
    R.Does way (fun _ => True) (modify f : Run PUnit) := by
  intro m hm
  exact ⟨h m hm, trivial⟩

theorem fail_bind {f : β → Run α} (cause : Cause) (pos : Position) :
    R.Does way Q (Run.fail cause pos >>= f) :=
  bind (fail (Q := fun _ => False) cause pos) fun _ never => never.elim

theorem look {r : Except Halt α} (faults : OnlyFaults r) (h : ∀ a, r = .ok a → Q a) :
    R.Does way Q (liftM r) := by
  cases r with
  | ok a => exact give (h a rfl)
  | error e => exact stop (allows_fault (faults e rfl))

theorem mapM {γ : Type} {f : γ → Run α} {xs : List γ} (h : ∀ x ∈ xs, R.Does way Q (f x)) :
    R.Does way (fun as => ∀ a ∈ as, Q a) (xs.mapM f) := by
  induction xs with
  | nil => exact give (by simp)
  | cons x rest ih =>
    rw [List.mapM_cons]
    refine bind (h x List.mem_cons_self) fun a ha => ?_
    refine bind (ih fun y hy => h y (List.mem_cons_of_mem _ hy)) fun as has => give ?_
    exact List.forall_mem_cons.mpr ⟨ha, has⟩

theorem block {k : Run α} (h : R.Does way Q k) : R.Does way Q (Run.block k) := by
  intro m hm
  rw [Run.block_eq]
  refine (h m hm).map ?_ ?_
  · exact fun _ _ hn => ⟨hn.1.rewind _ _, hn.2⟩
  · exact fun _ _ hn => ⟨hn.1, hn.2.imp_right fun sound => sound.rewind _ _⟩

theorem caughtReturn {k : Run Value} (h : R.Does (.body false) R.plain k) :
    R.Does way R.plain fun m => caughtReturn (k m) := by
  intro m hm
  have ends := h m hm
  dsimp only
  cases result : k m with
  | ok v n =>
    rw [result] at ends
    exact ends
  | error e n =>
    rw [result] at ends
    obtain ⟨allowed, after⟩ := ends
    cases e with
    | returning v => exact ⟨after.resolve_left (by simp [spoils, Halt.isTooLarge]), allowed⟩
    | breaking => cases allowed
    | continuing => cases allowed
    | error e => exact ⟨allows_fault rfl, after⟩
    | outOfFuel => exact ⟨allows_fault rfl, after⟩

theorem loopTurn {looping : Bool} {k : Run Value} (h : R.Does (.body true) R.plain k) :
    R.Does (.body looping) (fun _ => True) (Eval.loopTurn k) := by
  intro m hm
  have ends := h m hm
  unfold Eval.loopTurn
  cases result : k m with
  | ok v n =>
    rw [result] at ends
    exact ⟨ends.1, trivial⟩
  | error e n =>
    rw [result] at ends
    obtain ⟨allowed, after⟩ := ends
    cases e with
    | breaking => exact ⟨after.resolve_left (by simp [spoils, Halt.isTooLarge]), trivial⟩
    | continuing => exact ⟨after.resolve_left (by simp [spoils, Halt.isTooLarge]), trivial⟩
    | returning v => exact ⟨allowed, after⟩
    | error e => exact ⟨allows_fault rfl, after⟩
    | outOfFuel => exact ⟨allows_fault rfl, after⟩

end Does

namespace Holds

theorem give {a : α} (h : Q a) : R.Holds way P Q (pure a) := by
  intro x m hm hx
  exact ⟨hx, hm, h⟩

theorem stop {h : Halt} (allowed : R.allows way h) : R.Holds way P Q (throw h) := by
  intro x m hm hx
  exact ⟨allowed, Or.inr ⟨hx, hm⟩⟩

theorem ofCall {k : Held φ α} (h : R.Holds .call P Q k) : R.Holds way P Q k := by
  intro x m hm hx
  exact (h x m hm hx).mono (fun _ _ hs => hs) (fun _ _ hs => ⟨allows_of_call hs.1, hs.2⟩)

theorem bind {k : Held φ α} {f : α → Held φ β} (hk : R.Holds way P Q k)
    (hf : ∀ a, Q a → R.Holds way P S (f a)) : R.Holds way P S (k >>= f) := by
  intro x m hm hx
  refine Ends.bind ((hk x m hm hx).mono ?_ fun _ _ hs => hs)
  intro a s hs
  exact hf a hs.2.2 s.1 s.2 hs.2.1 hs.1

theorem held : R.Holds way P P Held.held := by
  intro x m hm hx
  exact ⟨hx, hm, hx⟩

theorem held_bind {f : φ → Held φ β}
    (hf : ∀ x m, m.Sound R → P x → R.Holding way P S (f x (x, m))) :
    R.Holds way P S (Held.held >>= f) := by
  intro x m hm hx
  exact hf x m hm hx

theorem get_bind {f : φ × Machine → Held φ β}
    (hf : ∀ x m, m.Sound R → P x → R.Holding way P S (f (x, m) (x, m))) :
    R.Holds way P S (get >>= f) := by
  intro x m hm hx
  exact hf x m hm hx

theorem setHeld {x : φ} (h : P x) : R.Holds way P (fun _ => True) (Held.setHeld x) := by
  intro y m hm _
  exact ⟨h, hm, trivial⟩

theorem look {r : Except Halt α} (faults : OnlyFaults r) (h : ∀ a, r = .ok a → Q a) :
    R.Holds way P Q (liftM r) := by
  cases r with
  | ok a => exact give (h a rfl)
  | error e => exact stop (allows_fault (faults e rfl))

theorem lift {k : Run α} (h : R.Does way Q k) : R.Holds way P Q (Held.lift k) := by
  intro x m hm hx
  rw [Held.lift_eq]
  refine (h m hm).map ?_ ?_
  · exact fun _ _ hn => ⟨hx, hn⟩
  · exact fun _ _ hn => ⟨hn.1, hn.2.imp_right fun sound => ⟨hx, sound⟩⟩

theorem works {k : Held φ α} (h : R.Holds way P Q k) : R.Works way kept P Q k := by
  intro x m hm hx
  refine (h x m hm hx).mono ?_ ?_
  · exact fun _ _ hs => ⟨fun _ => hs.1, hs.2⟩
  · exact fun _ _ hs => ⟨hs.1, hs.2.imp_right fun h => ⟨fun _ => h.1, h.2⟩⟩

theorem zoom {O : ψ → Prop} {part : ψ} {restore : ψ → φ → φ} {k : Held ψ α}
    (h : R.Holds way O Q k) (hpart : O part) (hrestore : ∀ p x, O p → P x → P (restore p x)) :
    R.Holds way P Q (Held.zoom part restore k) := by
  intro x m hm hx
  rw [Held.zoom_eq]
  refine (h part m hm hpart).map ?_ ?_
  · exact fun _ s hs => ⟨hrestore s.1 x hs.1 hx, hs.2⟩
  · exact fun _ s hs => ⟨hs.1, hs.2.imp_right fun h => ⟨hrestore s.1 x h.1 hx, h.2⟩⟩

end Holds

namespace Works

theorem holds {k : Held φ α} (h : R.Works way kept P Q k) (yes : kept ∨ ∀ x, P x) :
    R.Holds way P Q k := by
  have back : ∀ x, (kept → P x) → P x := fun x hx => yes.elim hx fun all => all x
  intro x m hm hx
  refine (h x m hm hx).mono ?_ ?_
  · exact fun _ s hs => ⟨back s.1 hs.1, hs.2⟩
  · exact fun _ s hs => ⟨hs.1, hs.2.imp_right fun h => ⟨back s.1 h.1, h.2⟩⟩

theorem bind {k : Held φ α} {f : α → Held φ β} (hk : R.Holds way P Q k)
    (hf : ∀ a, Q a → R.Works way kept P S (f a)) : R.Works way kept P S (k >>= f) := by
  intro x m hm hx
  refine Ends.bind ((hk x m hm hx).mono ?_ ?_)
  · intro a s hs
    exact hf a hs.2.2 s.1 s.2 hs.2.1 hs.1
  · exact fun _ _ hs => ⟨hs.1, hs.2.imp_right fun h => ⟨fun _ => h.1, h.2⟩⟩

theorem andThen {k : Held φ α} {f : α → β} (hk : R.Works way kept P Q k) (hf : ∀ a, Q a → S (f a)) :
    R.Works way kept P S (do return f (← k)) := by
  intro x m hm hx
  refine Ends.bind ((hk x m hm hx).mono ?_ fun _ _ hs => hs)
  exact fun a s hs => ⟨hs.1, hs.2.1, hf a hs.2.2⟩

theorem drop {x : φ} {k : Held φ α} (h : R.Works way kept P Q k) (hx : P x) :
    R.Does way Q (Held.drop x k) := by
  intro m hm
  rw [Held.drop_eq]
  exact (h x m hm hx).map (fun _ _ hs => hs.2) fun _ _ hs => ⟨hs.1, hs.2.imp_right fun h => h.2⟩

theorem zoom {O : ψ → Prop} {part : ψ} {restore : ψ → φ → φ} {k : Held ψ α}
    (h : R.Works way kept O Q k) (hpart : O part) (hrestore : ∀ p x, O p → P x → P (restore p x)) :
    R.Works way kept P Q (Held.zoom part restore k) := by
  intro x m hm hx
  have back : ∀ p, (kept → O p) → kept → P (restore p x) := fun p hp yes => hrestore p x (hp yes) hx
  rw [Held.zoom_eq]
  refine (h part m hm hpart).map ?_ ?_
  · exact fun _ s hs => ⟨back s.1 hs.1, hs.2⟩
  · exact fun _ s hs => ⟨hs.1, hs.2.imp_right fun h => ⟨back s.1 h.1, h.2⟩⟩

end Works

theorem Holds.drop {x : φ} {k : Held φ α} (h : R.Holds way P Q k) (hx : P x) :
    R.Does way Q (Held.drop x k) :=
  (@Holds.works _ R way True _ _ P Q k h).drop hx

section Places

variable {k : Held Value α}

theorem Holds.ofCell (h : R.Holds way R.plain Q k) (c : Nat) (name : Text) (pos : Position) :
    R.Does way Q (Held.ofCell c name pos k) := by
  intro m hm
  cases locked : m.store.beginWrite c name pos with
  | error e =>
    rw [Held.ofCell_refused locked]
    exact ⟨allows_fault (m.store.beginWrite_faults c name pos e locked), Or.inr hm⟩
  | ok s =>
    have opened : (m.withStore s).Sound R := hm.openCell locked
    rw [Held.ofCell_eq locked]
    refine (h _ _ opened (opened.world.cells c)).map ?_ ?_
    · exact fun _ t ht => ⟨ht.2.1.closeCell c ht.1, ht.2.2⟩
    · exact fun _ t ht => ⟨ht.1, ht.2.imp_right fun h => h.2.closeCell c h.1⟩

theorem Holds.behind (h : R.Holds way R.plain Q k) (name : Text) (pos : Position) :
    R.Holds way R.plain Q (Held.behind name pos k) := by
  refine Holds.bind Holds.held fun v hv => ?_
  cases v with
  | shared c => exact lift (h.ofCell c name pos)
  | _ => exact h

theorem Holds.behind_passing (h : R.Holds way R.plain Q k) (name : Text) (pos : Position) :
    R.Holds way R.passes Q (Held.behind name pos k) := by
  refine Holds.held_bind fun v m hm hv => ?_
  have unaliased : v.isShared = false → R.Holding way R.passes Q (k (v, m)) := by
    intro unshared
    refine (h v m hm (plain_of_passes hv unshared)).mono ?_ ?_
    · exact fun _ _ hs => ⟨Or.inr hs.1, hs.2⟩
    · exact fun _ _ hs => ⟨hs.1, hs.2.imp_right fun h => ⟨Or.inr h.1, h.2⟩⟩
  cases v with
  | shared c => exact Holds.lift (h.ofCell c name pos) _ m hm hv
  | _ => exact unaliased rfl

/-- A plain value that is an alias occurs only where all values are plain. -/
theorem Works.behind (h : R.Works way kept R.plain Q k) (name : Text) (pos : Position) :
    R.Works way kept R.plain Q (Held.behind name pos k) := by
  refine Works.bind Holds.held fun v hv => ?_
  cases v with
  | shared c => exact (Holds.lift ((h.holds (Or.inr (R.shared c hv))).ofCell c name pos)).works
  | _ => exact h

theorem Holds.onVariable (h : R.Holds way R.plain Q k) {m : Machine} (hm : m.Sound R) {name : Text}
    {e : Entry} (found : m.scope.find? name = some e) (pos : Position) :
    R.After way Q (Run.onVariable name e.value (Held.behind name pos k) m) := by
  rw [Run.onVariable_eq]
  refine (h.behind_passing name pos e.value m hm (hm.scope e (Scope.mem_of_find? found))).map ?_ ?_
  · exact fun _ s hs => ⟨hs.2.1.setVariable name hs.1, hs.2.2⟩
  · exact fun _ s hs => ⟨hs.1, hs.2.imp_right fun h => h.2.setVariable name h.1⟩

theorem Holds.onThis (h : R.Holds way R.plain Q k) {m : Machine} (hm : m.Sound R) {v : Value}
    (found : m.this = some v) (pos : Position) :
    R.After way Q (Run.onThis v (Held.behind Reserved.this pos k) m) := by
  rw [Run.onThis_eq]
  refine (h.behind Reserved.this pos v m hm (hm.this v found)).map ?_ ?_
  · exact fun _ s hs => ⟨hs.2.1.setThis hs.1, hs.2.2⟩
  · exact fun _ s hs => ⟨hs.1, hs.2.imp_right fun h => h.2.setThis h.1⟩

end Places

end Regime

end Scripting
