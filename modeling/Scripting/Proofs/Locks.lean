import Scripting.Proofs.Contract.Stage

/-
Locks of cells. Evaluation takes the lock of a cell whenever it works on what an alias stands for,
and everything else may run and fail while the lock is held. Whatever happens in between, the lock
is given back: every cell ends with the readers and the writer that it began with, and a new cell
ends with none.
-/
namespace Scripting

def Cell.lock (c : Cell) : Nat × Bool := (c.readers, c.writer)

namespace Store

theorem cell_of_size_le {s : Store} {c : Nat} (h : s.size ≤ c) : s.cell c = default := by
  have outside : ¬ c < s.cells.size := Nat.not_lt.mpr h
  simp [cell, outside]

theorem put_of_size_le {s : Store} {c : Nat} (h : s.size ≤ c) (x : Cell) : s.put c x = s := by
  have same : s.cells.setIfInBounds c x = s.cells := Array.setIfInBounds_eq_of_size_le h
  exact congrArg Store.mk same

theorem lock_put {s : Store} {c : Nat} {x : Cell} (h : x.lock = (s.cell c).lock) (d : Nat) :
    ((s.put c x).cell d).lock = (s.cell d).lock := by
  by_cases same : d = c
  · subst same
    by_cases inside : d < s.size
    · rw [cell_put_self inside, h]
    · rw [put_of_size_le (by omega)]
  · rw [cell_put_of_ne same]

theorem lock_setValue (s : Store) (c : Nat) (v : Value) (d : Nat) :
    ((s.setValue c v).cell d).lock = (s.cell d).lock := by
  unfold setValue
  exact lock_put (by rfl) d

theorem lock_alloc (s : Store) (v : Value) (d : Nat) :
    ((s.alloc v).1.cell d).lock = (s.cell d).lock := by
  by_cases old : d < s.size
  · rw [cell_alloc_old old]
  · have absent : s.cell d = default := cell_of_size_le (by omega)
    by_cases new : d = s.size
    · have added : (s.alloc v).1.cell d = ⟨v, 0, false⟩ := new ▸ cell_alloc_new s v
      rw [added, absent]
      rfl
    · have beyond : (s.alloc v).1.size ≤ d := by
        rw [size_alloc]
        omega
      rw [cell_of_size_le beyond, absent]

theorem lock_share (s : Store) (v : Value) (d : Nat) :
    ((s.share v).1.cell d).lock = (s.cell d).lock := by
  cases v with
  | shared c => rfl
  | _ => exact lock_alloc s _ d

/-- A cell is taken for writing only if nobody uses it. -/
theorem beginWrite_cases {s t : Store} {c : Nat} {name : Text} {pos : Position}
    (h : s.beginWrite c name pos = .ok t) :
    (s.cell c).lock = (0, false) ∧ t = s.put c { s.cell c with writer := true } := by
  unfold beginWrite at h
  dsimp only at h
  split at h
  · cases h
  · next free =>
    cases h
    refine ⟨?_, rfl⟩
    simp only [Bool.or_eq_true, bne_iff_ne, ne_eq, not_or, Bool.not_eq_true, Decidable.not_not] at free
    rw [Cell.lock, free.1, free.2]

theorem lock_endWrite_self (s : Store) (c : Nat) :
    ((s.endWrite c).cell c).lock = ((s.cell c).readers, false) := by
  by_cases inside : c < s.size
  · rw [endWrite, cell_put_self inside]
    rfl
  · have absent : s.size ≤ c := by omega
    rw [endWrite, put_of_size_le absent, cell_of_size_le absent]
    rfl

/-- Giving a cell back after writing undoes taking it, whatever was done to the store in between, as
long as that left the locks alone. -/
theorem lock_endWrite {s t u : Store} {c : Nat} {name : Text} {pos : Position}
    (taken : s.beginWrite c name pos = .ok t) (kept : ∀ d, (u.cell d).lock = (t.cell d).lock)
    (v : Value) (d : Nat) :
    (((u.setValue c v).endWrite c).cell d).lock = (s.cell d).lock := by
  obtain ⟨free, rfl⟩ := beginWrite_cases taken
  have since : ∀ d, ((u.setValue c v).cell d).lock =
      ((s.put c { s.cell c with writer := true }).cell d).lock :=
    fun d => (lock_setValue u c v d).trans (kept d)
  by_cases same : d = c
  · subst same
    have unread : (s.cell d).readers = 0 := congrArg Prod.fst free
    have readers : ((u.setValue d v).cell d).readers = 0 := by
      have locked := congrArg Prod.fst (since d)
      by_cases inside : d < s.size
      · rw [cell_put_self inside] at locked
        exact locked.trans unread
      · rw [put_of_size_le (by omega)] at locked
        exact locked.trans unread
    rw [lock_endWrite_self, readers, free]
  · rw [endWrite, cell_put_of_ne same, since, cell_put_of_ne same]

theorem put_cell (s : Store) (c : Nat) : s.put c (s.cell c) = s := by
  by_cases inside : c < s.size
  · have there : c < s.cells.size := inside
    have same : s.cells.setIfInBounds c (s.cell c) = s.cells := by
      simp [cell, there, Array.setIfInBounds]
    exact congrArg Store.mk same
  · exact put_of_size_le (by omega) _

theorem put_put (s : Store) (c : Nat) (x y : Cell) : (s.put c x).put c y = s.put c y := by
  simp [put]

theorem read_eq_beginRead (s : Store) (c : Nat) (name : Text) (pos : Position) :
    s.read c name pos = (s.beginRead c name pos).map (fun t => (t.cell c).value) ∧
      ∀ t, s.beginRead c name pos = .ok t → t.endRead c = s := by
  unfold read beginRead
  dsimp only
  split
  · exact ⟨rfl, fun t none => by cases none⟩
  · by_cases inside : c < s.size
    · constructor
      · simp only [Except.map, cell_put_self inside]
      · intro t eq
        cases eq
        simp only [endRead, cell_put_self inside, put_put, Nat.add_sub_cancel]
        exact put_cell s c
    · have absent : s.size ≤ c := by omega
      constructor
      · simp only [Except.map, put_of_size_le absent]
      · intro t eq
        cases eq
        simp only [endRead, put_of_size_le absent]

/-- All locks of a store are as they were in an earlier one, and those of new cells are free. -/
structure LocksKept (s t : Store) : Prop where
  old : ∀ c, c < s.size → (t.cell c).readers = (s.cell c).readers ∧ (t.cell c).writer = (s.cell c).writer
  new : ∀ c, s.size ≤ c → (t.cell c).readers = 0 ∧ (t.cell c).writer = false

theorem locksKept_of_lock {s t : Store} (h : ∀ c, (t.cell c).lock = (s.cell c).lock) :
    s.LocksKept t where
  old c _ := ⟨congrArg Prod.fst (h c), congrArg Prod.snd (h c)⟩
  new c outside := by
    have free : (t.cell c).lock = (0, false) := by
      rw [h c, cell_of_size_le outside]
      rfl
    exact ⟨congrArg Prod.fst free, congrArg Prod.snd free⟩

end Store

def Machine.SameLocks (m n : Machine) : Prop := ∀ c, (n.store.cell c).lock = (m.store.cell c).lock

namespace Machine.SameLocks

theorem refl (m : Machine) : SameLocks m m := fun _ => rfl

theorem trans {a b c : Machine} (h : SameLocks a b) (h' : SameLocks b c) : SameLocks a c :=
  fun d => (h' d).trans (h d)

end Machine.SameLocks

open Machine

def Discipline.locks (engine : Engine) : Discipline engine Kind.all where
  holds _ := True
  keeps := SameLocks
  grows := SameLocks
  refl := SameLocks.refl
  trans := SameLocks.trans
  widen h := h
  follow := SameLocks.trans
  idle _ _ _ _ _ _ := ⟨fun _ => rfl, trivial⟩
  load _ _ _ _ := ⟨fun _ => rfl, trivial⟩
  share {m _ e} _ _ := ⟨m.store.lock_share e.value, trivial⟩
  assign _ _ _ keeps _ _ := ⟨keeps, trivial⟩
  setThis _ _ keeps _ _ := ⟨keeps, trivial⟩
  openCell _ _ := trivial
  closeCell _ locked keeps _ _ := ⟨Store.lock_endWrite locked keeps _, trivial⟩
  rewind _ grows _ := ⟨grows, trivial⟩
  enter _ _ _ _ _ := trivial
  leave _ keeps _ := ⟨keeps, trivial⟩
  declare _ _ _ _ _ := ⟨fun _ => rfl, trivial⟩
  mark _ _ _ := ⟨fun _ => rfl, trivial⟩
  bind _ _ _ _ := ⟨fun _ => rfl, trivial⟩
  isolate _ _ := trivial
  rejoin _ grows _ := ⟨grows, trivial⟩

section

variable (engine : Engine)

def Contract.locks : Contract engine :=
  Contract.strict (Discipline.locks engine) fun m _ => Module.fair_all m

theorem Contract.locks_inv (m : Machine) : (Contract.locks engine).Inv m :=
  ⟨Machine.tidy_all m, trivial⟩

theorem Contract.locks_evaluators (fuel : Nat) :
    (Contract.locks engine).Evaluators (Eval.evaluator engine fuel) (Eval.evaluator engine fuel) :=
  Eval.evaluators_inMode (Contract.locks engine) fuel

theorem eval_locksKept (fuel : Nat) (e : Expr) (m : Machine) :
    m.store.LocksKept (ending (Eval.evalAt engine fuel e m)).store := by
  have kept := (Contract.locks_evaluators engine fuel).eval e m (Contract.locks_inv engine m)
  have same : SameLocks m (ending (Eval.evalAt engine fuel e m)) :=
    (kept.ends.mono (fun _ _ h => h.1.1) (fun _ _ h => h.1.1)).ending
  exact Store.locksKept_of_lock same

theorem exec_locksKept (fuel : Nat) (stmt : Stmt) (m : Machine) :
    m.store.LocksKept (ending (Eval.execAt engine fuel stmt m)).store := by
  have grown := ((Contract.locks_evaluators engine fuel).exec stmt).grows m (Contract.locks_inv engine m)
  have same : SameLocks m (ending (Eval.execAt engine fuel stmt m)) :=
    (grown.ends.mono (fun _ _ h => h.1.1) (fun _ _ h => h.1.1)).ending
  exact Store.locksKept_of_lock same

theorem callNamed_locksKept (fuel : Nat) (name : Text) (args : List Value) (exposedOnly : Bool)
    (pos : Position) (this : Option Value) (m : Machine) :
    m.store.LocksKept
      (ending (Eval.callNamedAt engine fuel name args exposedOnly pos (this, m))).2.store := by
  have kept := (Contract.locks_evaluators engine fuel).call name args exposedOnly pos
    (fun _ _ => Or.inr trivial) this m (Contract.locks_inv engine m) (fun _ _ => trivial)
  have same : SameLocks m
      (ending (Eval.callNamedAt engine fuel name args exposedOnly pos (this, m))).2 := by
    refine (kept.ends.mono ?_ ?_).ending (P := fun s => SameLocks m s.2)
    · exact fun _ _ h => h.2.1.1
    · exact fun _ _ h => h.2.1.1
  exact Store.locksKept_of_lock same

variable {engine}

theorem locksKept_of_staging {α : Type} {Q : α → Prop} {s : Stage} {library : Module} {depth : Nat}
    {r r' : EStateM.Result Halt Stage α}
    (kept : (Contract.locks engine).Staging
      ((Contract.locks engine).Stride (s.start library depth)) Q r r') :
    s.world.store.LocksKept (ending r).world.store := by
  refine Store.locksKept_of_lock ((kept.ends.mono ?_ ?_).ending
    (P := fun t => ∀ c, (t.world.store.cell c).lock = (s.world.store.cell c).lock))
  · rintro a t ⟨n, stride, rfl, -⟩
    exact stride.1
  · rintro h t ⟨n, stride, rfl, -⟩
    exact stride.1

end

/-- Locks are given back by everything that runs, whether it ends with a value, by leaving a function
or a loop, or with an error: by expressions, statements and calls, and by all that a host can start.
Looking into a cell takes a lock for reading only as long as it takes to look. -/
theorem locks_are_given_back (engine : Engine) :
    (∀ fuel e (m : Machine), m.store.LocksKept (ending (Eval.evalAt engine fuel e m)).store) ∧
    (∀ fuel stmt (m : Machine), m.store.LocksKept (ending (Eval.execAt engine fuel stmt m)).store) ∧
    (∀ fuel name args exposedOnly pos this (m : Machine),
      m.store.LocksKept
        (ending (Eval.callNamedAt engine fuel name args exposedOnly pos (this, m))).2.store) ∧
    (∀ script (s : Stage), s.world.store.LocksKept (ending (engine.run script s)).world.store) ∧
    (∀ script name args (s : Stage),
      s.world.store.LocksKept (ending (engine.callFunction script name args s)).world.store) ∧
    (∀ script fn args (s : Stage),
      s.world.store.LocksKept (ending (engine.callPointer script fn args s)).world.store) ∧
    (∀ script (s : Stage), s.world.store.LocksKept (ending (engine.makeModule script s)).world.store) ∧
    (∀ path pos (s : Stage),
      s.world.store.LocksKept (ending (engine.resolveModule path pos s)).world.store) ∧
    (∀ (s : Store) c name pos,
      s.read c name pos = (s.beginRead c name pos).map (fun t => (t.cell c).value) ∧
        ∀ t, s.beginRead c name pos = .ok t → t.endRead c = s) := by
  have evaluators := Contract.locks_evaluators engine ampleFuel
  have start : ∀ (s : Stage) library depth, (Contract.locks engine).Inv (s.start library depth) :=
    fun s library depth => Contract.locks_inv engine _
  have passing : ∀ args, (Contract.locks engine).Passing args := fun _ _ _ => Or.inr trivial
  refine ⟨eval_locksKept engine, exec_locksKept engine, callNamed_locksKept engine, ?_, ?_, ?_, ?_, ?_,
    Store.read_eq_beginRead⟩
  · intro script s
    exact locksKept_of_staging (Contract.runBy_staging evaluators (start s _ 0))
  · intro script name args s
    exact locksKept_of_staging
      (Contract.callBy_staging evaluators (start s _ 1) name (passing args)).stride
  · intro script fn args s
    exact locksKept_of_staging
      (Contract.pointerBy_staging evaluators (start s _ 0) trivial (passing args)).stride
  · intro script s
    exact locksKept_of_staging (Contract.makeModule_staging evaluators (start s _ 0) script).stride
  · intro path pos s
    exact locksKept_of_staging (Contract.resolveModule_staging evaluators (start s _ 0) path pos).stride

end Scripting
