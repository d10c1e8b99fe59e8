import Scripting.Proofs.Contract.Discipline
import Scripting.Proofs.Running

/-
Two evaluations side by side. The first is by an engine as it is; the second by an engine that
calculates in another way, or through an evaluator that looks at more. They agree when they end
alike and respect a discipline, or when the first ends in a way that excuses everything.
-/
namespace Scripting

def Engine.inMode (engine : Engine) (mode : Arithmetic) : Engine := { engine with arithmetic := mode }

structure Contract (engine : Engine) where
  kind : Kind
  discipline : Discipline engine kind
  /-- The arithmetic of the second evaluation. -/
  mode : Arithmetic
  /-- How the first evaluation may end without any promise about the second. -/
  excused : Halt → Prop
  returning : ∀ v, ¬ excused (.returning v)
  breaking : ¬ excused .breaking
  continuing : ¬ excused .continuing
  missing : ∀ path pos, ¬ excused (.cause (.moduleNotFound path) pos)
  located : ∀ e pos, excused (.error e) → excused (.error (e.located pos))
  natives : ∀ m ∈ engine.nativeModules, m.Fair kind
  calculates : ∀ (f : CoreFn) s fuel args,
    (∃ h, (f.apply engine.arithmetic s fuel args).result = .error h ∧ excused h) ∨
      f.apply mode s fuel args = f.apply engine.arithmetic s fuel args

/-- Two results side by side: alike and as expected, or excused. -/
inductive Agree {σ α : Type} (excused : Halt → Prop) (good : α → σ → Prop) (bad : Halt → σ → Prop) :
    EStateM.Result Halt σ α → EStateM.Result Halt σ α → Prop where
  | ok {a : α} {s : σ} (h : good a s) : Agree excused good bad (.ok a s) (.ok a s)
  | error {e : Halt} {s : σ} (h : bad e s) : Agree excused good bad (.error e s) (.error e s)
  | excused {e : Halt} {s : σ} {r : EStateM.Result Halt σ α} (h : excused e) :
      Agree excused good bad (.error e s) r

def ending {σ α : Type} : EStateM.Result Halt σ α → σ
  | .ok _ s => s
  | .error _ s => s

def Ends {σ α : Type} (good : α → σ → Prop) (bad : Halt → σ → Prop) : EStateM.Result Halt σ α → Prop
  | .ok a s => good a s
  | .error h s => bad h s

theorem Ends.mono {σ α : Type} {good good' : α → σ → Prop} {bad bad' : Halt → σ → Prop}
    {r : EStateM.Result Halt σ α} (h : Ends good bad r) (hgood : ∀ a s, good a s → good' a s)
    (hbad : ∀ e s, bad e s → bad' e s) : Ends good' bad' r := by
  cases r with
  | ok a s => exact hgood a s h
  | error e s => exact hbad e s h

theorem Ends.map {σ τ α : Type} {good : α → σ → Prop} {bad : Halt → σ → Prop} {good' : α → τ → Prop}
    {bad' : Halt → τ → Prop} {f : σ → τ} {r : EStateM.Result Halt σ α} (h : Ends good bad r)
    (hgood : ∀ a s, good a s → good' a (f s)) (hbad : ∀ e s, bad e s → bad' e (f s)) :
    Ends good' bad' (inState f r) := by
  cases r with
  | ok a s => exact hgood a s h
  | error e s => exact hbad e s h

theorem Ends.bind {σ α β : Type} {good : β → σ → Prop} {bad : Halt → σ → Prop}
    {k : EStateM Halt σ α} {f : α → EStateM Halt σ β} {s : σ}
    (h : Ends (fun a t => Ends good bad (f a t)) bad (k s)) : Ends good bad ((k >>= f) s) := by
  change Ends good bad (EStateM.bind k f s)
  unfold EStateM.bind
  generalize k s = r at h ⊢
  cases r with
  | ok a t => exact h
  | error e t => exact h

theorem Ends.ending {σ α : Type} {P : σ → Prop} {r : EStateM.Result Halt σ α}
    (h : Ends (fun _ s => P s) (fun _ s => P s) r) : P (ending r) := by
  cases r with
  | ok a s => exact h
  | error e s => exact h

def caughtReturn {σ : Type} : EStateM.Result Halt σ Value → EStateM.Result Halt σ Value
  | .error (.returning v) s => .ok v s
  | outcome => outcome

def locatedAt {σ α : Type} (pos : Position) : EStateM.Result Halt σ α → EStateM.Result Halt σ α
  | .error (.error e) s => .error (.error (e.located pos)) s
  | outcome => outcome

theorem Ends.locatedAt {σ α : Type} {good : α → σ → Prop} {bad : Halt → σ → Prop} {pos : Position}
    {r : EStateM.Result Halt σ α} (h : Ends good bad r)
    (located : ∀ e s, bad (.error e) s → bad (.error (e.located pos)) s) :
    Ends good bad (locatedAt pos r) := by
  cases r with
  | ok a s => exact h
  | error e s =>
    cases e with
    | error e => exact located e s h
    | _ => exact h

/-- What is known of a result, whatever the state was. -/
def Gives {σ α : Type} (P : α → Prop) (k : EStateM Halt σ α) : Prop :=
  ∀ s, Ends (fun a _ => P a) (fun _ _ => True) (k s)

namespace Gives

variable {α β φ ψ : Type} {P : α → Prop}

theorem bind {σ : Type} {Q : β → Prop} {k : EStateM Halt σ α} {f : α → EStateM Halt σ β}
    (hk : Gives P k) (hf : ∀ a, P a → Gives Q (f a)) : Gives Q (k >>= f) :=
  fun s => Ends.bind ((hk s).mono (fun a t h => hf a h t) fun _ _ _ => trivial)

theorem whatever {σ : Type} (k : EStateM Halt σ α) : Gives (fun _ => True) k := by
  intro s
  cases k s <;> trivial

theorem lift {k : Run α} (h : Gives P k) : Gives P (Held.lift k : Held φ α) := by
  rintro ⟨x, m⟩
  rw [Held.lift_eq]
  exact (h m).map (fun _ _ ha => ha) fun _ _ _ => trivial

theorem drop {x : φ} {k : Held φ α} (h : Gives P k) : Gives P (Held.drop x k) := by
  intro m
  rw [Held.drop_eq]
  exact (h (x, m)).map (fun _ _ ha => ha) fun _ _ _ => trivial

theorem zoom {part : ψ} {restore : ψ → φ → φ} {k : Held ψ α} (h : Gives P k) :
    Gives P (Held.zoom part restore k) := by
  rintro ⟨x, m⟩
  rw [Held.zoom_eq]
  exact (h (part, m)).map (fun _ _ ha => ha) fun _ _ _ => trivial

theorem ofMachine {x : φ} {restore : φ → Machine → Machine} {k : Held φ α} (h : Gives P k) :
    Gives P (Held.ofMachine x restore k) := by
  intro m
  rw [Held.ofMachine_eq]
  exact (h (x, m)).map (fun _ _ ha => ha) fun _ _ _ => trivial

theorem behind {k : Held Value α} (h : Gives P k) (name : Text) (pos : Position) :
    Gives P (Held.behind name pos k) := by
  refine bind (whatever Held.held) fun v _ => ?_
  split
  · next c =>
    refine lift fun m => ?_
    cases taken : m.store.beginWrite c name pos with
    | error e =>
      rw [Held.ofCell_refused taken]
      trivial
    | ok s =>
      rw [Held.ofCell_eq taken]
      exact (h ((s.cell c).value, m.withStore s)).map (fun _ _ ha => ha) fun _ _ _ => trivial
  · exact h

end Gives

namespace Agree

variable {σ α β : Type} {excused : Halt → Prop} {good : α → σ → Prop} {bad : Halt → σ → Prop}

theorem mono {good' : α → σ → Prop} {bad' : Halt → σ → Prop} {r r' : EStateM.Result Halt σ α}
    (h : Agree excused good bad r r') (hgood : ∀ a s, good a s → good' a s)
    (hbad : ∀ e s, bad e s → bad' e s) : Agree excused good' bad' r r' := by
  cases h with
  | ok h => exact .ok (hgood _ _ h)
  | error h => exact .error (hbad _ _ h)
  | excused h => exact .excused h

theorem of_ends {r : EStateM.Result Halt σ α} (h : Ends good bad r) : Agree excused good bad r r := by
  cases r with
  | ok a s => exact .ok h
  | error e s => exact .error h

/-- The same is done with both results. What is excused must stay so. -/
theorem handle {τ : Type} {good' : β → τ → Prop} {bad' : Halt → τ → Prop}
    {g : EStateM.Result Halt σ α → EStateM.Result Halt τ β} {r r' : EStateM.Result Halt σ α}
    (h : Agree excused good bad r r') (hgood : ∀ a s, good a s → Ends good' bad' (g (.ok a s)))
    (hbad : ∀ e s, bad e s → Ends good' bad' (g (.error e s)))
    (stays : ∀ e s, excused e → ∃ e' t, g (.error e s) = .error e' t ∧ excused e') :
    Agree excused good' bad' (g r) (g r') := by
  cases h with
  | ok h => exact of_ends (hgood _ _ h)
  | error h => exact of_ends (hbad _ _ h)
  | @excused e s _ h =>
    obtain ⟨e', t, eq, still⟩ := stays e s h
    rw [eq]
    exact .excused still

theorem map {τ : Type} {good' : α → τ → Prop} {bad' : Halt → τ → Prop} {f : σ → τ}
    {r r' : EStateM.Result Halt σ α} (h : Agree excused good bad r r')
    (hgood : ∀ a s, good a s → good' a (f s)) (hbad : ∀ e s, bad e s → bad' e (f s)) :
    Agree excused good' bad' (inState f r) (inState f r') :=
  h.handle hgood hbad fun e s still => ⟨e, f s, rfl, still⟩

theorem eq {r r' : EStateM.Result Halt σ α} (h : Agree excused good bad r r')
    (strict : ∀ e s, r = .error e s → ¬ excused e) : r' = r := by
  cases h with
  | ok h => rfl
  | error h => rfl
  | excused h => exact absurd h (strict _ _ rfl)

theorem ends {r r' : EStateM.Result Halt σ α} (h : Agree (fun _ => False) good bad r r') :
    Ends good bad r := by
  cases h with
  | ok h => exact h
  | error h => exact h
  | excused h => exact h.elim

theorem bind {good' : β → σ → Prop} {k k' : EStateM Halt σ α} {f f' : α → EStateM Halt σ β} {s : σ}
    (hk : Agree excused good bad (k s) (k' s))
    (hf : ∀ a t, good a t → Agree excused good' bad (f a t) (f' a t)) :
    Agree excused good' bad ((k >>= f) s) ((k' >>= f') s) := by
  change Agree excused good' bad (EStateM.bind k f s) (EStateM.bind k' f' s)
  unfold EStateM.bind
  generalize k s = r at hk ⊢
  generalize k' s = r' at hk ⊢
  cases hk with
  | ok h => exact hf _ _ h
  | error h => exact .error h
  | excused h => exact .excused h

theorem caughtReturn {good : Value → σ → Prop} {r r' : EStateM.Result Halt σ Value}
    (h : Agree excused good bad r r') (never : ∀ v, ¬ excused (.returning v))
    (caught : ∀ v s, bad (.returning v) s → good v s) :
    Agree excused good bad (caughtReturn r) (caughtReturn r') := by
  refine h.handle (g := Scripting.caughtReturn) (fun _ _ h => h) ?_ ?_
  · intro e s h
    cases e with
    | returning v => exact caught v s h
    | _ => exact h
  · intro e s h
    cases e with
    | returning v => exact absurd h (never v)
    | _ => exact ⟨_, _, rfl, h⟩

theorem loopTurn {k k' : Run Value} {m : Machine} {good : Value → Machine → Prop}
    {bad : Halt → Machine → Prop} {turned : Bool → Machine → Prop}
    (h : Agree excused good bad (k m) (k' m)) (breaking : ¬ excused .breaking)
    (continuing : ¬ excused .continuing) (ended : ∀ v n again, good v n → turned again n)
    (left : ∀ e n again, bad e n → turned again n) :
    Agree excused turned bad (Eval.loopTurn k m) (Eval.loopTurn k' m) := by
  refine h.handle (g := fun out => Eval.loopTurn (fun _ => out) m) (fun v n => ended v n true) ?_ ?_
  · intro e n h
    cases e with
    | breaking => exact left _ n false h
    | continuing => exact left _ n true h
    | _ => exact h
  · intro e n h
    cases e with
    | breaking => exact absurd h breaking
    | continuing => exact absurd h continuing
    | _ => exact ⟨_, _, rfl, h⟩

theorem locatedAt {pos : Position} {r r' : EStateM.Result Halt σ α} (h : Agree excused good bad r r')
    (located : ∀ e s, bad (.error e) s → bad (.error (e.located pos)) s)
    (stays : ∀ e, excused (.error e) → excused (.error (e.located pos))) :
    Agree excused good bad (locatedAt pos r) (locatedAt pos r') := by
  refine h.handle (g := Scripting.locatedAt pos) (fun _ _ h => h) ?_ ?_
  · exact fun e s h => Ends.locatedAt (r := .error e s) h located
  · intro e s h
    cases e with
    | error e => exact ⟨_, _, rfl, stays e h⟩
    | _ => exact ⟨_, _, rfl, h⟩

end Agree

namespace Contract

variable {engine : Engine} (C : Contract engine)

def Inv (m : Machine) : Prop := m.Tidy C.kind ∧ C.discipline.holds m

def Step (m n : Machine) : Prop := C.discipline.keeps m n ∧ C.Inv n

def Stride (m n : Machine) : Prop := C.discipline.grows m n ∧ C.Inv n

def Signal (h : Halt) : Prop := ∀ v, h = .returning v → C.kind.plain v

variable {C}

theorem step_refl {m : Machine} (h : C.Inv m) : C.Step m m := ⟨C.discipline.refl m, h⟩

theorem Step.trans {a b c : Machine} (h : C.Step a b) (h' : C.Step b c) : C.Step a c :=
  ⟨C.discipline.trans h.1 h'.1, h'.2⟩

theorem Stride.trans {a b c : Machine} (h : C.Stride a b) (h' : C.Stride b c) : C.Stride a c :=
  ⟨C.discipline.follow h.1 h'.1, h'.2⟩

theorem Step.stride {a b : Machine} (h : C.Step a b) : C.Stride a b :=
  ⟨C.discipline.widen h.1, h.2⟩

theorem signal_of_fault {h : Halt} (fault : h.isFault = true) : C.Signal h := by
  intro v eq
  subst eq
  cases fault

variable (C)

abbrev KeepsAt {α : Type} (m : Machine) (Q : α → Prop) (r r' : EStateM.Result Halt Machine α) : Prop :=
  Agree C.excused (fun a n => C.Step m n ∧ Q a) (fun h n => C.Step m n ∧ C.Signal h) r r'

def Keeps {α : Type} (Q : α → Prop) (k k' : Run α) : Prop :=
  ∀ m, C.Inv m → C.KeepsAt m Q (k m) (k' m)

def Grows {α : Type} (Q : α → Prop) (k k' : Run α) : Prop :=
  ∀ m, C.Inv m → Agree C.excused (fun a n => C.Stride m n ∧ Q a)
    (fun h n => C.Stride m n ∧ C.Signal h) (k m) (k' m)

abbrev HoldsAt {φ α : Type} (P : φ → Prop) (m : Machine) (Q : α → Prop)
    (r r' : EStateM.Result Halt (φ × Machine) α) : Prop :=
  Agree C.excused (fun a s => P s.1 ∧ C.Step m s.2 ∧ Q a) (fun h s => P s.1 ∧ C.Step m s.2 ∧ C.Signal h)
    r r'

def Holds {φ α : Type} (P : φ → Prop) (Q : α → Prop) (k k' : Held φ α) : Prop :=
  ∀ x m, C.Inv m → P x → C.HoldsAt P m Q (k (x, m)) (k' (x, m))

variable {C} {α β φ ψ : Type} {P : φ → Prop} {Q : α → Prop} {R : β → Prop}

namespace Keeps

theorem give {a : α} (h : Q a) : C.Keeps Q (pure a) (pure a) := by
  intro m hm
  exact .ok ⟨step_refl hm, h⟩

theorem stop {h : Halt} (signal : C.Signal h) : C.Keeps Q (throw h) (throw h) := by
  intro m hm
  exact .error ⟨step_refl hm, signal⟩

theorem fail (cause : Cause) (pos : Position) : C.Keeps Q (Run.fail cause pos) (Run.fail cause pos) :=
  stop (signal_of_fault rfl)

theorem imp {Q' : α → Prop} {k k' : Run α} (h : C.Keeps Q k k') (weaker : ∀ a, Q a → Q' a) :
    C.Keeps Q' k k' := by
  intro m hm
  exact (h m hm).mono (fun a n hn => ⟨hn.1, weaker a hn.2⟩) (fun _ _ hn => hn)

theorem after {m n : Machine} {r r' : EStateM.Result Halt Machine α} (step : C.Step m n)
    (h : C.KeepsAt n Q r r') : C.KeepsAt m Q r r' :=
  h.mono (fun _ _ hn => ⟨step.trans hn.1, hn.2⟩) (fun _ _ hn => ⟨step.trans hn.1, hn.2⟩)

theorem bind {k k' : Run α} {f f' : α → Run β} (hk : C.Keeps Q k k')
    (hf : ∀ a, Q a → C.Keeps R (f a) (f' a)) : C.Keeps R (k >>= f) (k' >>= f') := by
  intro m hm
  refine Agree.bind (hk m hm) ?_
  intro a n hn
  exact after hn.1 (hf a hn.2 n hn.1.2)

theorem get_bind {f f' : Machine → Run β} (hf : ∀ m, C.Inv m → C.KeepsAt m R (f m m) (f' m m)) :
    C.Keeps R (get >>= f) (get >>= f') := by
  intro m hm
  exact hf m hm

theorem change {f : Machine → Machine} (h : ∀ m, C.Inv m → C.Step m (f m)) :
    C.Keeps (fun _ => True) (modify f : Run PUnit) (modify f) := by
  intro m hm
  exact .ok ⟨h m hm, trivial⟩

theorem fail_bind {f f' : β → Run α} (cause : Cause) (pos : Position) :
    C.Keeps Q (Run.fail cause pos >>= f) (Run.fail cause pos >>= f') :=
  bind (fail (Q := fun _ => False) cause pos) fun _ none => none.elim

theorem look {r : Except Halt α} (faults : OnlyFaults r) (h : ∀ a, r = .ok a → Q a) :
    C.Keeps Q (liftM r) (liftM r) := by
  cases r with
  | ok a => exact give (h a rfl)
  | error e => exact stop (signal_of_fault (faults e rfl))

theorem mapM {γ : Type} {f f' : γ → Run α} {xs : List γ} (h : ∀ x ∈ xs, C.Keeps Q (f x) (f' x)) :
    C.Keeps (fun as => ∀ a ∈ as, Q a) (xs.mapM f) (xs.mapM f') := by
  induction xs with
  | nil => exact give (by simp)
  | cons x rest ih =>
    rw [List.mapM_cons, List.mapM_cons]
    refine bind (h x List.mem_cons_self) fun a ha => ?_
    refine bind (ih fun y hy => h y (List.mem_cons_of_mem _ hy)) fun as has => give ?_
    intro b hb
    rcases List.mem_cons.mp hb with rfl | old
    · exact ha
    · exact has b old

end Keeps

theorem Keeps.grows {k k' : Run α} (h : C.Keeps Q k k') : C.Grows Q k k' := by
  intro m hm
  exact (h m hm).mono (fun _ _ hn => ⟨hn.1.stride, hn.2⟩) (fun _ _ hn => ⟨hn.1.stride, hn.2⟩)

namespace Grows

theorem after {m n : Machine} {r r' : EStateM.Result Halt Machine α} (stride : C.Stride m n)
    (h : Agree C.excused (fun a o => C.Stride n o ∧ Q a) (fun e o => C.Stride n o ∧ C.Signal e) r r') :
    Agree C.excused (fun a o => C.Stride m o ∧ Q a) (fun e o => C.Stride m o ∧ C.Signal e) r r' :=
  h.mono (fun _ _ ho => ⟨stride.trans ho.1, ho.2⟩) (fun _ _ ho => ⟨stride.trans ho.1, ho.2⟩)

theorem bind {k k' : Run α} {f f' : α → Run β} (hk : C.Grows Q k k')
    (hf : ∀ a, Q a → C.Grows R (f a) (f' a)) : C.Grows R (k >>= f) (k' >>= f') := by
  intro m hm
  refine Agree.bind (hk m hm) ?_
  intro a n hn
  exact after hn.1 (hf a hn.2 n hn.1.2)

theorem get_bind {f f' : Machine → Run β}
    (hf : ∀ m, C.Inv m → C.Grows R (f m) (f' m)) : C.Grows R (get >>= f) (get >>= f') := by
  intro m hm
  exact hf m hm m hm

theorem change {f : Machine → Machine} (h : ∀ m, C.Inv m → C.Stride m (f m)) :
    C.Grows (fun _ => True) (modify f : Run PUnit) (modify f) := by
  intro m hm
  exact .ok ⟨h m hm, trivial⟩

theorem block {k k' : Run α} (h : C.Grows Q k k') : C.Keeps Q (Run.block k) (Run.block k') := by
  intro m hm
  have back : ∀ n, C.Stride m n → C.Step m (n.rewind m.scope.length m.imports.length) := by
    intro n hn
    obtain ⟨keeps, holds⟩ := C.discipline.rewind hm.2 hn.1 hn.2.2
    exact ⟨keeps, hn.2.1.rewind _ _, holds⟩
  rw [Run.block_eq, Run.block_eq]
  exact (h m hm).map (fun _ n hn => ⟨back n hn.1, hn.2⟩) fun _ n hn => ⟨back n hn.1, hn.2⟩

end Grows

namespace Holds

theorem give {a : α} (h : Q a) : C.Holds P Q (pure a) (pure a) := by
  intro x m hm hx
  exact .ok ⟨hx, step_refl hm, h⟩

theorem stop {h : Halt} (signal : C.Signal h) : C.Holds P Q (throw h) (throw h) := by
  intro x m hm hx
  exact .error ⟨hx, step_refl hm, signal⟩

theorem bind {k k' : Held φ α} {f f' : α → Held φ β} (hk : C.Holds P Q k k')
    (hf : ∀ a, Q a → C.Holds P R (f a) (f' a)) : C.Holds P R (k >>= f) (k' >>= f') := by
  intro x m hm hx
  refine Agree.bind (hk x m hm hx) ?_
  rintro a ⟨y, n⟩ ⟨hy, step, ha⟩
  refine (hf a ha y n step.2 hy).mono ?_ ?_
  · rintro b s ⟨hs, later, hb⟩
    exact ⟨hs, step.trans later, hb⟩
  · rintro e s ⟨hs, later, he⟩
    exact ⟨hs, step.trans later, he⟩

theorem held : C.Holds P P Held.held Held.held := by
  intro x m hm hx
  exact .ok ⟨hx, step_refl hm, hx⟩

theorem held_bind {f f' : φ → Held φ β}
    (hf : ∀ x m, C.Inv m → P x → C.HoldsAt P m R (f x (x, m)) (f' x (x, m))) :
    C.Holds P R (Held.held >>= f) (Held.held >>= f') := by
  intro x m hm hx
  exact hf x m hm hx

theorem get_bind {f f' : φ × Machine → Held φ β}
    (hf : ∀ x m, C.Inv m → P x → C.HoldsAt P m R (f (x, m) (x, m)) (f' (x, m) (x, m))) :
    C.Holds P R (get >>= f) (get >>= f') := by
  intro x m hm hx
  exact hf x m hm hx

theorem stop_bind {f f' : β → Held φ α} {h : Halt} (signal : C.Signal h) :
    C.Holds P Q (throw h >>= f) (throw h >>= f') :=
  bind (stop (Q := fun _ => False) signal) fun _ none => none.elim

theorem setHeld {x : φ} (h : P x) : C.Holds P (fun _ => True) (Held.setHeld x) (Held.setHeld x) := by
  intro y m hm _
  exact .ok ⟨h, step_refl hm, trivial⟩

theorem look {r : Except Halt α} (faults : OnlyFaults r) (h : ∀ a, r = .ok a → Q a) :
    C.Holds P Q (liftM r) (liftM r) := by
  cases r with
  | ok a => exact give (h a rfl)
  | error e => exact stop (signal_of_fault (faults e rfl))

theorem lift {k k' : Run α} (h : C.Keeps Q k k') : C.Holds P Q (Held.lift k) (Held.lift k') := by
  intro x m hm hx
  rw [Held.lift_eq, Held.lift_eq]
  exact (h m hm).map (fun _ _ hn => ⟨hx, hn⟩) fun _ _ hn => ⟨hx, hn⟩

theorem drop {x : φ} {k k' : Held φ α} (h : C.Holds P Q k k') (hx : P x) :
    C.Keeps Q (Held.drop x k) (Held.drop x k') := by
  intro m hm
  rw [Held.drop_eq, Held.drop_eq]
  exact (h x m hm hx).map (fun _ _ hs => hs.2) fun _ _ hs => hs.2

theorem zoom {S : ψ → Prop} {part : ψ} {restore : ψ → φ → φ} {k k' : Held ψ α}
    (h : C.Holds S Q k k') (hpart : S part) (hrestore : ∀ p x, S p → P x → P (restore p x)) :
    C.Holds P Q (Held.zoom part restore k) (Held.zoom part restore k') := by
  intro x m hm hx
  rw [Held.zoom_eq, Held.zoom_eq]
  refine (h part m hm hpart).map ?_ ?_
  · exact fun _ s hs => ⟨hrestore s.1 x hs.1 hx, hs.2⟩
  · exact fun _ s hs => ⟨hrestore s.1 x hs.1 hx, hs.2⟩

theorem ofCell {k k' : Held Value α} (h : C.Holds C.kind.plain Q k k') (c : Nat) (name : Text)
    (pos : Position) : C.Keeps Q (Held.ofCell c name pos k) (Held.ofCell c name pos k') := by
  intro m hm
  cases locked : m.store.beginWrite c name pos with
  | error e =>
    rw [Held.ofCell_refused locked, Held.ofCell_refused locked]
    exact .error ⟨step_refl hm, signal_of_fault (m.store.beginWrite_faults c name pos e locked)⟩
  | ok s =>
    have opened : C.Inv (m.withStore s) := ⟨hm.1.openCell locked, C.discipline.openCell hm.2 locked⟩
    have back : ∀ v n, C.kind.plain v → C.Step (m.withStore s) n →
        C.Step m (n.withStore ((n.store.setValue c v).endWrite c)) := by
      intro v n hv hn
      obtain ⟨keeps, holds⟩ := C.discipline.closeCell hm.2 locked hn.1 hn.2.2 hv
      exact ⟨keeps, hn.2.1.closeCell c hv, holds⟩
    rw [Held.ofCell_eq locked, Held.ofCell_eq locked]
    refine (h _ _ opened (opened.1.world.cells c)).map ?_ ?_
    · exact fun _ t ht => ⟨back t.1 t.2 ht.1 ht.2.1, ht.2.2⟩
    · exact fun _ t ht => ⟨back t.1 t.2 ht.1 ht.2.1, ht.2.2⟩

theorem behind {k k' : Held Value α} (h : C.Holds C.kind.plain Q k k') (name : Text)
    (pos : Position) :
    C.Holds C.kind.plain Q (Held.behind name pos k) (Held.behind name pos k') := by
  refine bind held fun v hv => ?_
  cases v with
  | shared c => exact lift (ofCell h c name pos)
  | _ => exact h

theorem behind_alias {k k' : Held Value α} (h : C.Holds C.kind.plain Q k k') (name : Text)
    (pos : Position) (c : Nat) :
    C.Holds (· = .shared c) Q (Held.behind name pos k) (Held.behind name pos k') := by
  refine bind held fun v hv => ?_
  subst hv
  exact lift (ofCell h c name pos)

theorem behind_passing {k k' : Held Value α} (h : C.Holds C.kind.plain Q k k') (name : Text)
    (pos : Position) :
    C.Holds C.kind.passes Q (Held.behind name pos k) (Held.behind name pos k') := by
  intro v m hm hv
  rcases hv with shared | plain
  · cases v with
    | shared c =>
      refine (behind_alias h name pos c (.shared c) m hm rfl).mono ?_ ?_
      · rintro a s ⟨same, rest⟩
        exact ⟨Or.inl (by rw [same]; rfl), rest⟩
      · rintro e s ⟨same, rest⟩
        exact ⟨Or.inl (by rw [same]; rfl), rest⟩
    | _ => cases shared
  · refine (behind h name pos v m hm plain).mono ?_ ?_
    · rintro a s ⟨hs, rest⟩
      exact ⟨Or.inr hs, rest⟩
    · rintro e s ⟨hs, rest⟩
      exact ⟨Or.inr hs, rest⟩

end Holds

end Contract

end Scripting
