import Scripting.Proofs.Contract.Stage

/-
The frame of a running function: the names and flags on its scope, its imports, its library, whether
it works on a value, and how many calls are open. Every expression leaves the frame as it found it,
however it ends; a statement at most adds the variable it declares or the module it imports.
-/
namespace Scripting

def Entry.label (e : Entry) : Text × Bool := (e.name, e.isConst)

namespace Scope

def labels (s : Scope) : List (Text × Bool) := s.map Entry.label

@[simp]
theorem length_labels (s : Scope) : s.labels.length = s.length := List.length_map _

theorem labels_modify {name : Text} {f : Entry → Entry} (h : ∀ e, (f e).label = e.label)
    (s : Scope) : labels (s.modify name f) = s.labels := by
  induction s with
  | nil => rfl
  | cons e rest ih =>
    unfold labels at ih ⊢
    by_cases same : e.name = name
    · simp [modify, same, h]
    · simp [modify, same, ih]

@[simp]
theorem labels_setValue (s : Scope) (name : Text) (v : Value) :
    labels (s.setValue name v) = s.labels := by
  refine labels_modify ?_ s
  intro e
  rfl

@[simp]
theorem labels_export (s : Scope) (name : Text) (as : Option Text) :
    labels (s.modify name fun e => { e with exported := as }) = s.labels := by
  refine labels_modify ?_ s
  intro e
  rfl

end Scope

namespace Machine

structure SameFrame (m n : Machine) : Prop where
  labels : n.scope.labels = m.scope.labels
  imports : n.imports = m.imports
  library : n.library = m.library
  root : n.root = m.root
  this : n.this.isSome = m.this.isSome
  depth : n.depth = m.depth

/-- The frame of the second machine is that of the first, with newer variables and imports. -/
structure Grown (m n : Machine) : Prop where
  labels : m.scope.labels <:+ n.scope.labels
  imports : m.imports <:+ n.imports
  library : n.library = m.library
  root : n.root = m.root
  this : n.this.isSome = m.this.isSome
  depth : n.depth = m.depth

namespace SameFrame

theorem refl (m : Machine) : SameFrame m m := ⟨rfl, rfl, rfl, rfl, rfl, rfl⟩

theorem trans {a b c : Machine} (h : SameFrame a b) (h' : SameFrame b c) : SameFrame a c :=
  ⟨h'.labels.trans h.labels, h'.imports.trans h.imports, h'.library.trans h.library,
    h'.root.trans h.root, h'.this.trans h.this, h'.depth.trans h.depth⟩

theorem grown {m n : Machine} (h : SameFrame m n) : Grown m n where
  labels := h.labels.symm ▸ List.suffix_refl _
  imports := h.imports.symm ▸ List.suffix_refl _
  library := h.library
  root := h.root
  this := h.this
  depth := h.depth

end SameFrame

theorem Grown.trans {a b c : Machine} (h : Grown a b) (h' : Grown b c) : Grown a c :=
  ⟨h.labels.trans h'.labels, h.imports.trans h'.imports, h'.library.trans h.library,
    h'.root.trans h.root, h'.this.trans h.this, h'.depth.trans h.depth⟩

theorem Grown.rewind {m n : Machine} (h : Grown m n) :
    SameFrame m (n.rewind m.scope.length m.imports.length) where
  labels := by
    have older := List.suffix_iff_eq_drop.mp h.labels
    rw [Scope.length_labels, Scope.length_labels] at older
    change (Scope.rewind n.scope m.scope.length).map Entry.label = _
    unfold Scope.rewind
    rw [List.map_drop]
    exact older.symm
  imports := (List.suffix_iff_eq_drop.mp h.imports).symm
  library := h.library
  root := h.root
  this := h.this
  depth := h.depth

end Machine

open Machine

/-- Frames are kept, and with limited calls there are never more open than the limit or, if that is
more, than there were at first. -/
def Discipline.frames (engine : Engine) (first : Nat) : Discipline engine Kind.all where
  holds m := 0 < engine.limits.callLevels → m.depth ≤ max first engine.limits.callLevels
  keeps := SameFrame
  grows := Grown
  refl := SameFrame.refl
  trans := SameFrame.trans
  widen := SameFrame.grown
  follow := Grown.trans
  idle _ _ _ _ _ h := ⟨⟨rfl, rfl, rfl, rfl, rfl, rfl⟩, h⟩
  load _ _ h _ := ⟨⟨rfl, rfl, rfl, rfl, rfl, rfl⟩, h⟩
  share h _ := ⟨⟨Scope.labels_setValue _ _ _, rfl, rfl, rfl, rfl, rfl⟩, h⟩
  assign _ _ _ keeps hn _ :=
    ⟨keeps.trans ⟨Scope.labels_setValue _ _ _, rfl, rfl, rfl, rfl, rfl⟩, hn⟩
  setThis _ some keeps hn _ :=
    ⟨⟨keeps.labels, keeps.imports, keeps.library, keeps.root, some.symm, keeps.depth⟩, hn⟩
  openCell h _ := h
  closeCell _ _ keeps hn _ :=
    ⟨⟨keeps.labels, keeps.imports, keeps.library, keeps.root, keeps.this, keeps.depth⟩, hn⟩
  rewind _ grows hn := ⟨grows.rewind, hn⟩
  enter {m} scope library this h room := by
    intro limited
    have := room limited
    change m.depth + 1 ≤ _
    omega
  leave {m n} scope library this h keeps hn := by
    refine ⟨⟨rfl, ?_, rfl, keeps.root, rfl, rfl⟩, h⟩
    have imports : n.imports = m.imports := keeps.imports
    simp [Machine.leave, imports]
  declare {m} name v isConst h _ :=
    ⟨⟨List.suffix_cons _ _, List.suffix_refl _, rfl, rfl, rfl, rfl⟩, h⟩
  mark {m} name as h := ⟨⟨Scope.labels_export _ _ _, rfl, rfl, rfl, rfl, rfl⟩, h⟩
  bind {m} name found h _ :=
    ⟨⟨List.suffix_refl _, List.suffix_cons _ _, rfl, rfl, rfl, rfl⟩, h⟩
  isolate _ _ _ := Nat.zero_le _
  rejoin h _ _ := ⟨⟨rfl, rfl, rfl, rfl, rfl, rfl⟩, h⟩

def Stmt.Adds : Stmt → Machine → Machine → Prop
  | .declare _ isConst name _, m, n => ∃ v, n = { m with scope := m.scope.push name v isConst }
  | .importModule _ _ (some name), m, n =>
    ∃ found, n = { m with imports := (name, found) :: m.imports }
  | _, m, n => n = m

theorem Contract.Effect.adds {engine : Engine} {C : Contract engine} {stmt : Stmt} {m n : Machine}
    (h : C.Effect stmt m n) : stmt.Adds m n := by
  unfold Contract.Effect at h
  split at h
  · obtain ⟨v, -, eq⟩ := h
    exact ⟨v, eq⟩
  · obtain ⟨found, -, eq⟩ := h
    exact ⟨found, eq⟩
  · next noDeclare noImport =>
    unfold Stmt.Adds
    split
    · exact absurd rfl (noDeclare _ _ _ _)
    · exact absurd rfl (noImport _ _ _)
    · exact h

section

variable (engine : Engine)

def Contract.frames (first : Nat) : Contract engine :=
  Contract.strict (Discipline.frames engine first) fun m _ => Module.fair_all m

theorem Contract.frames_inv (m : Machine) : (Contract.frames engine m.depth).Inv m :=
  ⟨Machine.tidy_all m, fun _ => Nat.le_max_left _ _⟩

theorem Contract.frames_evaluators (first fuel : Nat) :
    (Contract.frames engine first).Evaluators (Eval.evaluator engine fuel)
      (Eval.evaluator engine fuel) :=
  Eval.evaluators_inMode (Contract.frames engine first) fuel

theorem eval_sameFrame (fuel : Nat) (e : Expr) (m : Machine) :
    SameFrame m (ending (Eval.evalAt engine fuel e m)) := by
  have kept := (Contract.frames_evaluators engine m.depth fuel).eval e m (Contract.frames_inv engine m)
  exact (kept.ends.mono (fun _ _ h => h.1.1) (fun _ _ h => h.1.1)).ending

theorem exec_frame (fuel : Nat) (stmt : Stmt) (m : Machine) :
    Ends (fun _ n => ∃ o, SameFrame m o ∧ stmt.Adds o n) (fun _ n => SameFrame m n)
      (Eval.execAt engine fuel stmt m) := by
  have kept := (Contract.frames_evaluators engine m.depth fuel).exec stmt m (Contract.frames_inv engine m)
  refine kept.ends.mono ?_ (fun _ _ h => h.1.1)
  rintro v n ⟨-, o, step, effect⟩
  exact ⟨o, step.1, effect.adds⟩

theorem labels_of_staging {script : Script} {s : Stage} {depth : Nat}
    {r r' : EStateM.Result Halt Stage Value}
    (kept : (Contract.frames engine depth).Staging
      ((Contract.frames engine depth).Step (s.start script.library depth)) (fun _ => True) r r') :
    (ending r).scope.labels = s.scope.labels ∧ (ending r).this.isSome = s.this.isSome := by
  refine (kept.ends.mono ?_ ?_).ending
    (P := fun t => t.scope.labels = s.scope.labels ∧ t.this.isSome = s.this.isSome)
  · rintro v t ⟨n, step, rfl, -⟩
    exact ⟨step.1.labels, step.1.this⟩
  · rintro h t ⟨n, step, rfl, -⟩
    exact ⟨step.1.labels, step.1.this⟩

theorem callFunction_labels (script : Script) (name : Text) (args : List Value) (s : Stage) :
    (ending (engine.callFunction script name args s)).scope.labels = s.scope.labels ∧
      (ending (engine.callFunction script name args s)).this.isSome = s.this.isSome := by
  rw [← Engine.callBy_evaluator]
  have evaluators := Contract.frames_evaluators engine 1 ampleFuel
  have start := Contract.frames_inv engine (s.start script.library 1)
  have passing : (Contract.frames engine 1).Passing args := fun _ _ => Or.inr trivial
  exact labels_of_staging engine (Contract.callBy_staging evaluators start name passing)

theorem callPointer_labels (script : Script) (fn : Value) (args : List Value) (s : Stage) :
    (ending (engine.callPointer script fn args s)).scope.labels = s.scope.labels ∧
      (ending (engine.callPointer script fn args s)).this.isSome = s.this.isSome := by
  rw [← Engine.pointerBy_evaluator]
  have evaluators := Contract.frames_evaluators engine 0 ampleFuel
  have start := Contract.frames_inv engine (s.start script.library 0)
  have passing : (Contract.frames engine 0).Passing args := fun _ _ => Or.inr trivial
  exact labels_of_staging engine (Contract.pointerBy_staging evaluators start trivial passing)

variable {engine}

theorem depth_le_of_passes {σ α : Type} {entry : Evaluator → EStateM Halt σ α} {s : σ} {m : Machine}
    {first : Nat} (limited : 0 < engine.limits.callLevels) (room : first ≤ engine.limits.callLevels)
    (passes : engine.Passes entry s m)
    (agrees : ∀ ev', (Contract.frames engine first).Evaluators engine.evaluator ev' →
      ∃ good bad, Agree (fun _ => False) good bad (entry engine.evaluator s) (entry ev' s)) :
    m.depth ≤ engine.limits.callLevels := by
  have inv : (Contract.frames engine first).Inv m := passes.inv agrees
  have bound : m.depth ≤ max first engine.limits.callLevels := inv.2 limited
  omega

theorem depth_le_of_begins {m n : Machine} (limited : 0 < engine.limits.callLevels)
    (room : m.depth ≤ engine.limits.callLevels) :
    (∀ e, engine.Passes (fun ev => ev.eval e) m n → n.depth ≤ engine.limits.callLevels) ∧
    (∀ stmt, engine.Passes (fun ev => ev.exec stmt) m n → n.depth ≤ engine.limits.callLevels) := by
  have start := Contract.frames_inv engine m
  constructor
  · intro e passes
    exact depth_le_of_passes limited room passes fun ev' hev => ⟨_, _, hev.eval e m start⟩
  · intro stmt passes
    exact depth_le_of_passes limited room passes fun ev' hev => ⟨_, _, hev.exec stmt m start⟩

theorem depth_le_of_starts {script : Script} {s : Stage} {m : Machine}
    (limited : 0 < engine.limits.callLevels) :
    (engine.Passes (Engine.runBy script) s m → m.depth ≤ engine.limits.callLevels) ∧
    (∀ name args, engine.Passes (Engine.callBy script name args) s m →
      m.depth ≤ engine.limits.callLevels) ∧
    (∀ fn args, engine.Passes (Engine.pointerBy script fn args) s m →
      m.depth ≤ engine.limits.callLevels) := by
  have outer := Contract.frames_inv engine (s.start script.library 0)
  have inner := Contract.frames_inv engine (s.start script.library 1)
  refine ⟨fun passes => ?_, fun name args passes => ?_, fun fn args passes => ?_⟩
  · refine depth_le_of_passes limited (Nat.zero_le _) passes fun ev' hev => ?_
    exact ⟨_, _, Contract.runBy_staging hev outer⟩
  · refine depth_le_of_passes limited limited passes fun ev' hev => ?_
    exact ⟨_, _, Contract.callBy_staging hev inner name fun _ _ => Or.inr trivial⟩
  · refine depth_le_of_passes limited (Nat.zero_le _) passes fun ev' hev => ?_
    exact ⟨_, _, Contract.pointerBy_staging hev outer trivial fun _ _ => Or.inr trivial⟩

end

/-- Frames are kept: by every expression, however it ends; by every statement, but for the variable
that it declares and the module that it imports; and by every function that the host calls. With
limited calls, no more of them are ever open. -/
theorem frames_are_kept (engine : Engine) :
    (∀ fuel e m, SameFrame m (ending (Eval.evalAt engine fuel e m))) ∧
    (∀ fuel stmt m,
      Ends (fun _ n => ∃ o, SameFrame m o ∧ stmt.Adds o n) (fun _ n => SameFrame m n)
        (Eval.execAt engine fuel stmt m)) ∧
    (∀ script name args s,
      (ending (engine.callFunction script name args s)).scope.labels = s.scope.labels ∧
        (ending (engine.callFunction script name args s)).this.isSome = s.this.isSome) ∧
    (∀ script fn args s,
      (ending (engine.callPointer script fn args s)).scope.labels = s.scope.labels ∧
        (ending (engine.callPointer script fn args s)).this.isSome = s.this.isSome) ∧
    (0 < engine.limits.callLevels →
      (∀ m n, m.depth ≤ engine.limits.callLevels →
        (∀ e, engine.Passes (fun ev => ev.eval e) m n → n.depth ≤ engine.limits.callLevels) ∧
        (∀ stmt, engine.Passes (fun ev => ev.exec stmt) m n →
          n.depth ≤ engine.limits.callLevels)) ∧
      (∀ script s m,
        (engine.Passes (Engine.runBy script) s m → m.depth ≤ engine.limits.callLevels) ∧
        (∀ name args, engine.Passes (Engine.callBy script name args) s m →
          m.depth ≤ engine.limits.callLevels) ∧
        (∀ fn args, engine.Passes (Engine.pointerBy script fn args) s m →
          m.depth ≤ engine.limits.callLevels))) := by
  refine ⟨eval_sameFrame engine, exec_frame engine, callFunction_labels engine,
    callPointer_labels engine, ?_⟩
  intro limited
  exact ⟨fun m n room => depth_le_of_begins limited room, fun script s m => depth_le_of_starts limited⟩

end Scripting
