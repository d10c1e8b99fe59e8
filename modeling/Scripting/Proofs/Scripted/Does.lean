import Scripting.Proofs.Scripted.Basic

/-
What an evaluation does among such values: from a machine of scripts it leads to another one, with at
least as many cells. Two evaluators are looked at side by side, a plain one and one under a watch, and end
alike. What works on a place, or calls a function, does not touch the variables of the frame that it
stands in.
-/
namespace Scripting

/-- A machine that comes later in an evaluation; where the frame is `kept`, its variables are as before. -/
structure Machine.Later (kept : Bool) (m n : Machine) : Prop where
  scripted : n.Scripted
  size : m.store.size ≤ n.store.size
  scope : kept = true → n.scope = m.scope

def Halt.Scripted (size : Nat) (h : Halt) : Prop := ∀ v, h = .returning v → v.Scripted size

structure Lasting {α : Type} (P : Nat → α → Prop) : Prop where
  grow : ∀ {size more : Nat} {a : α}, size ≤ more → P size a → P more a

namespace Machine.Later

variable {kept : Bool} {m n o : Machine}

theorem refl (h : m.Scripted) : m.Later kept m := ⟨h, Nat.le_refl _, fun _ => rfl⟩

theorem trans (h : m.Later kept n) (h' : n.Later kept o) : m.Later kept o :=
  ⟨h'.scripted, Nat.le_trans h.size h'.size, fun yes => (h'.scope yes).trans (h.scope yes)⟩

theorem loose (h : m.Later true n) : m.Later kept n := ⟨h.scripted, h.size, fun _ => h.scope rfl⟩

end Machine.Later

theorem Halt.scripted_of_fault {size : Nat} {h : Halt} (fault : h.isFault = true) : h.Scripted size := by
  intro v eq
  subst eq
  cases fault

namespace Scripted

variable {α β φ ψ : Type}

abbrev At (kept : Bool) (m : Machine) (Q : Nat → α → Prop) (r r' : EStateM.Result Halt Machine α) : Prop :=
  Agree (fun _ => False) (fun a n => m.Later kept n ∧ Q n.store.size a)
    (fun h n => m.Later kept n ∧ h.Scripted n.store.size) r r'

/-- Two evaluations agree from every machine that has at least so many cells, and give values with a
property. -/
def Does (kept : Bool) (base : Nat) (Q : Nat → α → Prop) (k k' : Run α) : Prop :=
  ∀ m, m.Scripted → base ≤ m.store.size → At kept m Q (k m) (k' m)

abbrev HoldsAt (P : Nat → φ → Prop) (m : Machine) (Q : Nat → α → Prop)
    (r r' : EStateM.Result Halt (φ × Machine) α) : Prop :=
  Agree (fun _ => False) (fun a s => P s.2.store.size s.1 ∧ m.Later true s.2 ∧ Q s.2.store.size a)
    (fun h s => P s.2.store.size s.1 ∧ m.Later true s.2 ∧ h.Scripted s.2.store.size) r r'

/-- The value in hand has a property throughout, and the variables of the frame stay as they are. -/
def Holds (base : Nat) (P : Nat → φ → Prop) (Q : Nat → α → Prop) (k k' : Held φ α) : Prop :=
  ∀ x m, m.Scripted → base ≤ m.store.size → P m.store.size x → HoldsAt P m Q (k (x, m)) (k' (x, m))

def anything : Nat → α → Prop := fun _ _ => True

variable {kept : Bool} {base : Nat} {P : Nat → φ → Prop} {Q : Nat → α → Prop} {R : Nat → β → Prop}

namespace Does

variable {k k' : Run α} {f f' : α → Run β}

theorem give {a : α} (h : ∀ size, base ≤ size → Q size a) : Does kept base Q (pure a) (pure a) := by
  intro m hm le
  exact .ok ⟨.refl hm, h _ le⟩

theorem done {a : α} : Does kept base anything (pure a) (pure a) := give fun _ _ => trivial

theorem stop {h : Halt} (signal : ∀ size, base ≤ size → h.Scripted size) :
    Does kept base Q (throw h) (throw h) := by
  intro m hm le
  exact .error ⟨.refl hm, signal _ le⟩

theorem fail (cause : Cause) (pos : Position) :
    Does kept base Q (Run.fail cause pos) (Run.fail cause pos) :=
  stop fun _ _ => Halt.scripted_of_fault rfl

theorem imp {Q' : Nat → α → Prop} (h : Does kept base Q k k')
    (weaker : ∀ size a, base ≤ size → Q size a → Q' size a) : Does kept base Q' k k' := by
  intro m hm le
  refine (h m hm le).mono ?_ fun _ _ hn => hn
  exact fun a n hn => ⟨hn.1, weaker _ a (Nat.le_trans le hn.1.size) hn.2⟩

theorem raise {more : Nat} (h : Does kept base Q k k') (le : base ≤ more) : Does kept more Q k k' :=
  fun m hm le' => h m hm (Nat.le_trans le le')

theorem loose (h : Does true base Q k k') : Does kept base Q k k' := by
  intro m hm le
  exact (h m hm le).mono (fun _ _ hn => ⟨hn.1.loose, hn.2⟩) (fun _ _ hn => ⟨hn.1.loose, hn.2⟩)

theorem after {m n : Machine} {r r' : EStateM.Result Halt Machine α} (later : m.Later kept n)
    (h : At kept n Q r r') : At kept m Q r r' :=
  h.mono (fun _ _ hn => ⟨later.trans hn.1, hn.2⟩) (fun _ _ hn => ⟨later.trans hn.1, hn.2⟩)

theorem bind (hk : Does kept base Q k k')
    (hf : ∀ size a, base ≤ size → Q size a → Does kept size R (f a) (f' a)) :
    Does kept base R (k >>= f) (k' >>= f') := by
  intro m hm le
  refine Agree.bind (hk m hm le) ?_
  intro a n hn
  exact after hn.1 (hf _ a (Nat.le_trans le hn.1.size) hn.2 n hn.1.scripted (Nat.le_refl _))

theorem get_bind {f f' : Machine → Run β}
    (hf : ∀ m, m.Scripted → base ≤ m.store.size → At kept m R (f m m) (f' m m)) :
    Does kept base R (get >>= f) (get >>= f') := by
  intro m hm le
  exact hf m hm le

theorem change {f : Machine → Machine}
    (h : ∀ m : Machine, m.Scripted → base ≤ m.store.size → m.Later kept (f m)) :
    Does kept base anything (modify f : Run PUnit) (modify f) := by
  intro m hm le
  exact .ok ⟨h m hm le, trivial⟩

theorem fail_bind {f f' : β → Run α} (cause : Cause) (pos : Position) :
    Does kept base Q (Run.fail cause pos >>= f) (Run.fail cause pos >>= f') :=
  bind (fail (Q := fun _ _ => False) cause pos) fun _ _ _ never => never.elim

theorem mapM {γ : Type} {f f' : γ → Run α} {xs : List γ} (lasting : Lasting Q)
    (h : ∀ x ∈ xs, Does kept base Q (f x) (f' x)) :
    Does kept base (fun size as => ∀ a ∈ as, Q size a) (xs.mapM f) (xs.mapM f') := by
  induction xs generalizing base with
  | nil => exact give (by simp)
  | cons x rest ih =>
    rw [List.mapM_cons, List.mapM_cons]
    refine bind (h x List.mem_cons_self) fun size a le ha => ?_
    refine bind (ih fun y hy => (h y (List.mem_cons_of_mem _ hy)).raise le) fun more as le' has => ?_
    exact give fun size le'' => List.forall_mem_cons.mpr
      ⟨lasting.grow (Nat.le_trans le' le'') ha, fun b hb => lasting.grow le'' (has b hb)⟩

theorem block (h : Does false base Q k k') : Does false base Q (Run.block k) (Run.block k') := by
  intro m hm le
  have back : ∀ n, m.Later false n → m.Later false (n.rewind m.scope.length m.imports.length) :=
    fun n hn => ⟨hn.scripted.rewind _ _, hn.size, fun never => (by cases never)⟩
  rw [Run.block_eq, Run.block_eq]
  exact (h m hm le).map (fun _ n hn => ⟨back n hn.1, hn.2⟩) fun _ n hn => ⟨back n hn.1, hn.2⟩

theorem caughtReturn {k k' : Run Value} (h : Does kept base Value.Scripted k k') :
    Does kept base Value.Scripted (fun m => caughtReturn (k m)) (fun m => caughtReturn (k' m)) := by
  intro m hm le
  refine (h m hm le).caughtReturn (fun _ never => never) ?_
  exact fun v n hn => ⟨hn.1, hn.2 v rfl⟩

theorem loopTurn {k k' : Run Value} (h : Does kept base Value.Scripted k k') :
    Does kept base anything (Eval.loopTurn k) (Eval.loopTurn k') := by
  intro m hm le
  exact (h m hm le).loopTurn (fun never => never) (fun never => never)
    (fun _ _ _ hn => ⟨hn.1, trivial⟩) fun _ _ _ hn => ⟨hn.1, trivial⟩

end Does

namespace Holds

variable {k k' : Held φ α} {f f' : α → Held φ β}

theorem give {a : α} (h : ∀ size, base ≤ size → Q size a) : Holds base P Q (pure a) (pure a) := by
  intro x m hm le hx
  exact .ok ⟨hx, .refl hm, h _ le⟩

theorem stop {h : Halt} (signal : ∀ size, base ≤ size → h.Scripted size) :
    Holds base P Q (throw h) (throw h) := by
  intro x m hm le hx
  exact .error ⟨hx, .refl hm, signal _ le⟩

theorem fault {h : Halt} (fault : h.isFault = true) : Holds base P Q (throw h) (throw h) :=
  stop fun _ _ => Halt.scripted_of_fault fault

theorem raise {more : Nat} (h : Holds base P Q k k') (le : base ≤ more) : Holds more P Q k k' :=
  fun x m hm le' => h x m hm (Nat.le_trans le le')

theorem after {m n : Machine} {r r' : EStateM.Result Halt (φ × Machine) α} (later : m.Later true n)
    (h : HoldsAt P n Q r r') : HoldsAt P m Q r r' :=
  h.mono (fun _ _ hs => ⟨hs.1, later.trans hs.2.1, hs.2.2⟩)
    (fun _ _ hs => ⟨hs.1, later.trans hs.2.1, hs.2.2⟩)

theorem bind (hk : Holds base P Q k k')
    (hf : ∀ size a, base ≤ size → Q size a → Holds size P R (f a) (f' a)) :
    Holds base P R (k >>= f) (k' >>= f') := by
  intro x m hm le hx
  refine Agree.bind (hk x m hm le hx) ?_
  rintro a ⟨y, n⟩ ⟨hy, later, ha⟩
  exact after later (hf _ a (Nat.le_trans le later.size) ha y n later.scripted (Nat.le_refl _) hy)

theorem held : Holds base P P Held.held Held.held := by
  intro x m hm le hx
  exact .ok ⟨hx, .refl hm, hx⟩

theorem held_bind {f f' : φ → Held φ β}
    (hf : ∀ x m, m.Scripted → base ≤ m.store.size → P m.store.size x →
      HoldsAt P m R (f x (x, m)) (f' x (x, m))) :
    Holds base P R (Held.held >>= f) (Held.held >>= f') := by
  intro x m hm le hx
  exact hf x m hm le hx

theorem get_bind {f f' : φ × Machine → Held φ β}
    (hf : ∀ x m, m.Scripted → base ≤ m.store.size → P m.store.size x →
      HoldsAt P m R (f (x, m) (x, m)) (f' (x, m) (x, m))) :
    Holds base P R (get >>= f) (get >>= f') := by
  intro x m hm le hx
  exact hf x m hm le hx

theorem setHeld {x : φ} (h : ∀ size, base ≤ size → P size x) :
    Holds base P anything (Held.setHeld x) (Held.setHeld x) := by
  intro y m hm le _
  exact .ok ⟨h _ le, .refl hm, trivial⟩

theorem look {r : Except Halt α} (faults : OnlyFaults r)
    (h : ∀ a, r = .ok a → ∀ size, base ≤ size → Q size a) : Holds base P Q (liftM r) (liftM r) := by
  cases r with
  | ok a => exact give (h a rfl)
  | error e => exact fault (faults e rfl)

theorem lift {k k' : Run α} (lasting : Lasting P) (h : Does true base Q k k') :
    Holds base P Q (Held.lift k) (Held.lift k') := by
  intro x m hm le hx
  rw [Held.lift_eq, Held.lift_eq]
  refine (h m hm le).map ?_ ?_
  · exact fun _ n hn => ⟨lasting.grow hn.1.size hx, hn⟩
  · exact fun _ n hn => ⟨lasting.grow hn.1.size hx, hn⟩

theorem drop {x : φ} (h : Holds base P Q k k') (hx : ∀ size, base ≤ size → P size x) :
    Does true base Q (Held.drop x k) (Held.drop x k') := by
  intro m hm le
  rw [Held.drop_eq, Held.drop_eq]
  exact (h x m hm le (hx _ le)).map (fun _ _ hs => hs.2) fun _ _ hs => hs.2

theorem zoom {O : Nat → ψ → Prop} {part : ψ} {restore : ψ → φ → φ} {k k' : Held ψ α}
    (lasting : Lasting P) (h : Holds base O Q k k') (hpart : ∀ size, base ≤ size → O size part)
    (hrestore : ∀ size p x, base ≤ size → O size p → P size x → P size (restore p x)) :
    Holds base P Q (Held.zoom part restore k) (Held.zoom part restore k') := by
  intro x m hm le hx
  have back : ∀ p n, m.Later true n → O n.store.size p → P n.store.size (restore p x) :=
    fun p n hn hp => hrestore _ p x (Nat.le_trans le hn.size) hp (lasting.grow hn.size hx)
  rw [Held.zoom_eq, Held.zoom_eq]
  refine (h part m hm le (hpart _ le)).map ?_ ?_
  · exact fun _ s hs => ⟨back s.1 s.2 hs.2.1 hs.1, hs.2⟩
  · exact fun _ s hs => ⟨back s.1 s.2 hs.2.1 hs.1, hs.2⟩

end Holds

/-! ### Behind an alias -/

theorem lasting_scripted : Lasting Value.Scripted := ⟨fun le h => h.grow le⟩

theorem lasting_passing : Lasting Value.Passing := ⟨fun le h => h.grow le⟩

section

variable {k k' : Held Value α}

theorem Holds.ofCell (h : Holds base Value.Scripted Q k k') (c : Nat) (name : Text) (pos : Position) :
    Does true base Q (Held.ofCell c name pos k) (Held.ofCell c name pos k') := by
  intro m hm le
  cases locked : m.store.beginWrite c name pos with
  | error e =>
    rw [Held.ofCell_refused locked, Held.ofCell_refused locked]
    exact .error ⟨.refl hm, Halt.scripted_of_fault (m.store.beginWrite_faults c name pos e locked)⟩
  | ok s =>
    obtain ⟨opened, size⟩ := hm.openCell locked
    have back : ∀ v n, v.Scripted n.store.size → (m.withStore s).Later true n →
        m.Later true (n.withStore ((n.store.setValue c v).endWrite c)) ∧
          (n.withStore ((n.store.setValue c v).endWrite c)).store.size = n.store.size := by
      intro v n hv hn
      have same : (n.withStore ((n.store.setValue c v).endWrite c)).store.size = n.store.size := by
        change ((n.store.setValue c v).endWrite c).size = _
        simp [Store.endWrite, Store.setValue]
      exact ⟨⟨hn.scripted.closeCell c hv, same ▸ (size ▸ hn.size : m.store.size ≤ n.store.size),
        fun yes => hn.scope yes⟩, same⟩
    rw [Held.ofCell_eq locked, Held.ofCell_eq locked]
    refine (h _ _ opened (size ▸ le : base ≤ s.size) (opened.cells c)).map ?_ ?_
    · intro a t ht
      obtain ⟨later, same⟩ := back t.1 t.2 ht.1 ht.2.1
      exact ⟨later, same ▸ ht.2.2⟩
    · intro e t ht
      obtain ⟨later, same⟩ := back t.1 t.2 ht.1 ht.2.1
      exact ⟨later, same ▸ ht.2.2⟩

theorem Holds.behind (h : Holds base Value.Scripted Q k k') (name : Text) (pos : Position) :
    Holds base Value.Scripted Q (Held.behind name pos k) (Held.behind name pos k') := by
  refine Holds.held_bind fun v m hm le hv => ?_
  cases v with
  | shared c => cases hv.unshared
  | _ => exact h _ m hm le hv

theorem Holds.behind_alias (h : Holds base Value.Scripted Q k k') (name : Text) (pos : Position) (c : Nat) :
    Holds base (fun _ v => v = .shared c) Q (Held.behind name pos k) (Held.behind name pos k') := by
  refine Holds.held_bind fun v m hm le hv => ?_
  subst hv
  exact Holds.lift ⟨fun _ same => same⟩ (h.ofCell c name pos) _ m hm le rfl

theorem Holds.behind_passing (h : Holds base Value.Scripted Q k k') (name : Text) (pos : Position) :
    Holds base Value.Passing Q (Held.behind name pos k) (Held.behind name pos k') := by
  intro v m hm le hv
  by_cases own : v.isShared = false
  · exact (h.behind name pos v m hm le (hv.own own)).mono (fun _ _ hs => ⟨hs.1.passing, hs.2⟩)
      fun _ _ hs => ⟨hs.1.passing, hs.2⟩
  · cases v with
    | shared c =>
      refine (h.behind_alias name pos c _ m hm le rfl).mono ?_ ?_
      · exact fun _ s hs => ⟨hs.1 ▸ hv.grow hs.2.1.size, hs.2⟩
      · exact fun _ s hs => ⟨hs.1 ▸ hv.grow hs.2.1.size, hs.2⟩
    | _ => exact absurd rfl own

theorem Holds.onVariable (h : Holds base Value.Scripted Q k k') {m : Machine} (hm : m.Scripted)
    (le : base ≤ m.store.size) {name : Text} {e : Entry} (found : m.scope.find? name = some e)
    (pos : Position) : At false m Q (Run.onVariable name e.value (Held.behind name pos k) m)
      (Run.onVariable name e.value (Held.behind name pos k') m) := by
  have value := hm.entry found
  have back : ∀ v n, m.Later true n → Bindable n.store.size (n.scope.setValue name v).values →
      m.Later false { n with scope := n.scope.setValue name v } :=
    fun v n hn bound => ⟨hn.scripted.withScope bound, hn.size, fun never => (by cases never)⟩
  rw [Run.onVariable_eq, Run.onVariable_eq]
  by_cases own : e.value.isShared = false
  · have put : ∀ v n, m.Later true n → v.Scripted n.store.size →
        m.Later false { n with scope := n.scope.setValue name v } :=
      fun v n hn hv => back v n hn (Scope.bindable_setValue hn.scripted.scope hv)
    refine (h.behind name pos e.value m hm le (value.own own)).map ?_ ?_
    · exact fun _ s hs => ⟨put s.1 s.2 hs.2.1 hs.1, hs.2.2⟩
    · exact fun _ s hs => ⟨put s.1 s.2 hs.2.1 hs.1, hs.2.2⟩
  · obtain ⟨c, shared⟩ : ∃ c, e.value = .shared c := by
      cases same : e.value with
      | shared c => exact ⟨c, rfl⟩
      | _ => exact absurd (same ▸ rfl) own
    -- The variable is the same alias as before, and the frame has not changed.
    have unchanged : ∀ v n, m.Later true n → v = .shared c → n.scope.setValue name v = n.scope := by
      intro v n hn same
      rw [hn.scope rfl, same, ← shared, Scope.setValue_self found]
    have kept : ∀ v n, m.Later true n → v = .shared c →
        m.Later false { n with scope := n.scope.setValue name v } := by
      intro v n hn same
      refine back v n hn ?_
      rw [unchanged v n hn same]
      exact hn.scripted.scope
    refine (h.behind_alias name pos c e.value m hm le shared).map ?_ ?_
    · exact fun _ s hs => ⟨kept s.1 s.2 hs.2.1 hs.1, hs.2.2⟩
    · exact fun _ s hs => ⟨kept s.1 s.2 hs.2.1 hs.1, hs.2.2⟩

theorem Holds.onThis (h : Holds base Value.Scripted Q k k') {m : Machine} (hm : m.Scripted)
    (le : base ≤ m.store.size) {v : Value} (found : m.this = some v) (pos : Position) :
    At false m Q (Run.onThis v (Held.behind Reserved.this pos k) m)
      (Run.onThis v (Held.behind Reserved.this pos k') m) := by
  have back : ∀ v n, m.Later true n → v.Scripted n.store.size →
      m.Later false { n with this := some v } :=
    fun v n hn hv => ⟨hn.scripted.setThis hv, hn.size, fun never => (by cases never)⟩
  rw [Run.onThis_eq, Run.onThis_eq]
  refine (h.behind Reserved.this pos v m hm le (hm.this v found)).map ?_ ?_
  · exact fun _ s hs => ⟨back s.1 s.2 hs.2.1 hs.1, hs.2.2⟩
  · exact fun _ s hs => ⟨back s.1 s.2 hs.2.1 hs.1, hs.2.2⟩

end

end Scripted

end Scripting
