import Scripting.Proofs.Contract.Agree
import Scripting.Proofs.Contract.Natives

/-
What evaluation is made of, side by side: counting, looking at values, finding functions and
modules. Of all the engine, only the arithmetic may differ between the two sides.
-/
namespace Scripting

namespace Engine

variable (engine : Engine) (mode : Arithmetic)

theorem inMode_resolver : (engine.inMode mode).resolver = engine.resolver := rfl

theorem inMode_native? (name : Text) (types : List ValueType) (method : Bool) :
    (engine.inMode mode).native? name types method = engine.native? name types method := rfl

theorem inMode_compile (asExpression : Bool) (pieces : List Text) (nextClosure : Nat) :
    (engine.inMode mode).compile asExpression pieces nextClosure =
      engine.compile asExpression pieces nextClosure := rfl

theorem inMode_tick (pos : Position) : Eval.tick (engine.inMode mode) pos = Eval.tick engine pos := rfl

theorem inMode_callScript (ev : Evaluator) (target : Eval.Target) (args : List Value)
    (pos : Position) :
    Eval.callScript (engine.inMode mode) ev target args pos = Eval.callScript engine ev target args pos :=
  rfl

end Engine

/-! Counting an operation. -/

/-- Why a run stops at one of its operations: it is one too many, or the watcher asks for it. -/
def Engine.stop? (engine : Engine) (operations : Nat) : Option Cause :=
  if 0 < engine.limits.operations ∧ engine.limits.operations < operations then some .tooManyOperations
  else match engine.progress with
    | none => none
    | some stop => if 0 < stop ∧ stop ≤ operations then some .terminated else none

theorem Engine.within_of_stop? {engine : Engine} {operations : Nat}
    (goes : engine.stop? operations = none) (limited : 0 < engine.limits.operations) :
    operations ≤ engine.limits.operations := by
  unfold Engine.stop? at goes
  split at goes
  · cases goes
  · next within => exact Nat.le_of_not_lt fun beyond => within ⟨limited, beyond⟩

/-- What the watcher has been told after an operation. Of one too many it is told nothing. -/
def Engine.told (engine : Engine) (operations before : Nat) : Nat :=
  if 0 < engine.limits.operations ∧ engine.limits.operations < operations then before
  else match engine.progress with
    | none => before
    | some _ => operations

def Machine.ticked (engine : Engine) (m : Machine) : Machine :=
  m.idle (m.operations + 1) (engine.told (m.operations + 1) m.world.progress) m.world.nextClosure
    m.world.messages m.world.loading

namespace Eval

variable {engine : Engine}

/-- An operation is counted in any case, and then the run may stop. -/
theorem tick_eq (engine : Engine) (pos : Position) (m : Machine) :
    tick engine pos m = match engine.stop? (m.operations + 1) with
      | none => .ok () (m.ticked engine)
      | some cause => .error (.cause cause pos) (m.ticked engine) := by
  unfold Machine.ticked Engine.stop? Engine.told
  by_cases beyond : 0 < engine.limits.operations ∧ engine.limits.operations < m.operations + 1
  · simp only [if_pos beyond]
    exact congrFun (if_pos beyond) _
  · simp only [if_neg beyond]
    refine (congrFun (if_neg beyond) _).trans ?_
    cases engine.progress with
    | none => rfl
    | some stop =>
      by_cases reached : 0 < stop ∧ stop ≤ m.operations + 1
      · simp only [if_pos reached]
        rfl
      · simp only [if_neg reached]
        rfl

/-- What is true of the machine with one operation more, whether the run stops or not. -/
theorem tick_ends {good : Unit → Machine → Prop} {bad : Halt → Machine → Prop} (pos : Position)
    (m : Machine) (hgood : engine.stop? (m.operations + 1) = none → good () (m.ticked engine))
    (hbad : ∀ cause, engine.stop? (m.operations + 1) = some cause →
      bad (.cause cause pos) (m.ticked engine)) :
    Ends good bad (tick engine pos m) := by
  rw [tick_eq]
  split
  · next goes => exact hgood goes
  · next cause stops => exact hbad cause stops

end Eval

namespace Contract

variable {engine : Engine} (C : Contract engine)

def Object (this : Option Value) : Prop := ∀ v, this = some v → C.kind.plain v

/-- What a completed statement leaves behind, next to what it kept. -/
def Effect : Stmt → Machine → Machine → Prop
  | .declare _ isConst name _, m, n =>
    ∃ v, C.kind.plain v ∧ n = { m with scope := m.scope.push name v isConst }
  | .importModule _ _ (some name), m, n =>
    ∃ found, found.Fair C.kind ∧ n = { m with imports := (name, found) :: m.imports }
  | _, m, n => n = m

/-- Two evaluations agree, and what they leave behind at the end is in the relation `E` to what they
kept. -/
def Leaves {α : Type} (E : Machine → Machine → Prop) (Q : α → Prop) (k k' : Run α) : Prop :=
  ∀ m, C.Inv m → Agree C.excused (fun a n => Q a ∧ ∃ o, C.Step m o ∧ E o n)
    (fun h n => C.Step m n ∧ C.Signal h) (k m) (k' m)

abbrev Executes (stmt : Stmt) (k k' : Run Value) : Prop := C.Leaves (C.Effect stmt) C.kind.plain k k'

structure Evaluators (ev ev' : Evaluator) : Prop where
  fuel : ev'.fuel = ev.fuel
  native : ev.native = Native.apply engine.arithmetic ev.fuel
  native' : ev'.native = Native.apply C.mode ev.fuel
  eval : ∀ e, C.Keeps C.kind.plain (ev.eval e) (ev'.eval e)
  exec : ∀ stmt, C.Executes stmt (ev.exec stmt) (ev'.exec stmt)
  call : ∀ name args exposedOnly pos, (∀ v ∈ args, C.kind.passes v) →
    C.Holds C.Object C.kind.plain (ev.callNamed name args exposedOnly pos)
      (ev'.callNamed name args exposedOnly pos)

variable {C} {ev ev' : Evaluator}

theorem Inv.cells {m : Machine} (h : C.Inv m) (c : Nat) : C.kind.plain (m.store.cell c).value :=
  h.1.world.cells c

theorem step_declare {m : Machine} (h : C.Inv m) (name : Text) {v : Value} (hv : C.kind.passes v)
    (isConst : Bool) : C.Stride m { m with scope := m.scope.push name v isConst } := by
  obtain ⟨grows, holds⟩ := C.discipline.declare name v isConst h.2 hv
  exact ⟨grows, h.1.push name hv isConst, holds⟩

theorem step_bind {m : Machine} (h : C.Inv m) (name : Text) {found : Module}
    (fair : found.Fair C.kind) : C.Stride m { m with imports := (name, found) :: m.imports } := by
  obtain ⟨grows, holds⟩ := C.discipline.bind name found h.2 fair
  exact ⟨grows, h.1.bind name fair, holds⟩

theorem step_idle {m : Machine} (h : C.Inv m) (o p c : Nat) (ms : List Message) (l : List Shelf) :
    C.Step m (m.idle o p c ms l) := by
  obtain ⟨keeps, holds⟩ := C.discipline.idle o p c ms l h.2
  exact ⟨keeps, h.1.idle o p c ms l, holds⟩

theorem Effect.stride {stmt : Stmt} {m n : Machine} (hm : C.Inv m) (h : C.Effect stmt m n) :
    C.Stride m n := by
  unfold Effect at h
  split at h
  · obtain ⟨v, hv, rfl⟩ := h
    exact step_declare hm _ (Stock.passes_of_plain hv) _
  · obtain ⟨found, fair, rfl⟩ := h
    exact step_bind hm _ fair
  · subst h
    exact (step_refl hm).stride

theorem Executes.grows {stmt : Stmt} {k k' : Run Value} (h : C.Executes stmt k k') :
    C.Grows C.kind.plain k k' := by
  intro m hm
  refine (h m hm).mono ?_ ?_
  · rintro v n ⟨hv, o, step, effect⟩
    exact ⟨step.stride.trans (effect.stride step.2), hv⟩
  · rintro e n ⟨step, signal⟩
    exact ⟨step.stride, signal⟩

theorem Keeps.executes {stmt : Stmt} {k k' : Run Value} (h : C.Keeps C.kind.plain k k')
    (quiet : ∀ m, C.Effect stmt m m) : C.Executes stmt k k' := by
  intro m hm
  refine (h m hm).mono ?_ (fun _ _ hn => hn)
  rintro v n ⟨step, hv⟩
  exact ⟨hv, n, step, quiet n⟩

section Leaves

variable {α β : Type} {E : Machine → Machine → Prop} {Q : α → Prop} {R : β → Prop}

theorem Keeps.bind_leaves {k k' : Run α} {f f' : α → Run β} (hk : C.Keeps Q k k')
    (hf : ∀ a, Q a → C.Leaves E R (f a) (f' a)) : C.Leaves E R (k >>= f) (k' >>= f') := by
  intro m hm
  refine Agree.bind (hk m hm) ?_
  rintro a n ⟨step, ha⟩
  refine (hf a ha n step.2).mono ?_ ?_
  · rintro b p ⟨hb, o, later, effect⟩
    exact ⟨hb, o, step.trans later, effect⟩
  · rintro h p ⟨later, signal⟩
    exact ⟨step.trans later, signal⟩

theorem Leaves.give {k k' : Run α} (hk : C.Leaves E Q k k') {b : β} (hb : R b) :
    C.Leaves E R (do let _ ← k; return b) (do let _ ← k'; return b) := by
  intro m hm
  refine Agree.bind (hk m hm) ?_
  rintro a n ⟨-, rest⟩
  exact .ok ⟨hb, rest⟩

theorem leaves_change {f : Machine → Machine} (h : ∀ m, C.Inv m → E m (f m)) :
    C.Leaves E (fun _ => True) (modify f : Run PUnit) (modify f) := by
  intro m hm
  exact .ok ⟨trivial, m, step_refl hm, h m hm⟩

end Leaves

end Contract

namespace Eval

variable {engine : Engine} {C : Contract engine} {ev ev' : Evaluator}

open Contract

theorem tick_keeps (pos : Position) : C.Keeps (fun _ => True) (tick engine pos) (tick engine pos) := by
  intro m hm
  have step : C.Step m (m.ticked engine) := step_idle hm _ _ _ _ _
  refine .of_ends (tick_ends pos m ?_ ?_)
  · exact fun _ => ⟨step, trivial⟩
  · exact fun _ _ => ⟨step, signal_of_fault rfl⟩

theorem say_keeps (message : Message) :
    C.Keeps (fun _ => True) (say engine message) (say engine message) := by
  unfold say
  split
  · exact Keeps.change fun n hn => step_idle hn n.operations n.world.progress n.world.nextClosure _
      n.world.loading
  · exact Keeps.give trivial

theorem checkSize_faults (v : Value) (pos : Position) : OnlyFaults (checkSize engine v pos) := by
  unfold checkSize
  dsimp only
  split <;> first
    | exact OnlyFaults.ok _
    | split
      · exact OnlyFaults.cause _ pos
      · exact OnlyFaults.ok _

theorem checkSize_keeps (v : Value) (pos : Position) :
    C.Keeps (fun _ => True) (liftM (checkSize engine v pos)) (liftM (checkSize engine v pos)) :=
  Keeps.look (checkSize_faults v pos) fun _ _ => trivial

section Readers

variable (hev : C.Evaluators ev ev')
include hev

theorem flatten_keeps {v : Value} (hv : C.kind.passes v) :
    C.Keeps C.kind.plain (flatten ev v) (flatten ev' v) := by
  refine Keeps.get_bind fun m hm => ?_
  rw [hev.fuel]
  exact Keeps.look (m.store.flatten_faults ev.fuel v)
    (fun w eq => Store.flatten_plain hm.cells hv eq) m hm

theorem typeOf_keeps (v : Value) : C.Keeps (fun _ => True) (typeOf ev v) (typeOf ev' v) := by
  refine Keeps.get_bind fun m hm => ?_
  rw [hev.fuel]
  exact Keeps.look (m.store.typeOf_faults ev.fuel v) (fun _ _ => trivial) m hm

theorem displayText_keeps (v : Value) :
    C.Keeps (fun _ => True) (displayText ev v) (displayText ev' v) := by
  refine Keeps.get_bind fun m hm => ?_
  rw [hev.fuel]
  exact Keeps.look (v.displayText_faults m.store ev.fuel) (fun _ _ => trivial) m hm

theorem debugText_keeps (v : Value) : C.Keeps (fun _ => True) (debugText ev v) (debugText ev' v) := by
  refine Keeps.get_bind fun m hm => ?_
  rw [hev.fuel]
  exact Keeps.look (v.debugText_faults m.store ev.fuel) (fun _ _ => trivial) m hm

end Readers

theorem scriptFn?_keeps (name : Text) (arity : Nat) (exposedOnly : Bool) :
    C.Keeps (fun found => ∀ target, found = some target → target.library.Fair C.kind)
      (scriptFn? name arity exposedOnly) (scriptFn? name arity exposedOnly) := by
  refine Keeps.get_bind fun m hm => ?_
  cases m.library.scriptFn? name arity exposedOnly with
  | some f =>
    refine Keeps.give ?_ m hm
    intro target eq
    cases eq
    exact hm.1.library
  | none =>
    refine Keeps.give ?_ m hm
    intro target eq
    obtain ⟨f, -, rfl⟩ := Option.map_eq_some_iff.mp eq
    exact hm.1.root

theorem walkPath_keeps (pos : Position) (seen : List Text) {m : Module} (hm : m.Fair C.kind)
    (path : List Text) :
    C.Keeps (fun found => found.Fair C.kind) (walkPath pos seen m path) (walkPath pos seen m path) := by
  induction path generalizing seen m with
  | nil => exact Keeps.give hm
  | cons name rest ih =>
    unfold walkPath
    cases found : m.module? name with
    | some sub => exact ih (seen ++ [name]) (hm.module? found)
    | none => exact Keeps.fail _ pos

theorem findModule_keeps (path : List Text) (pos : Position) :
    C.Keeps (fun found => found.Fair C.kind) (findModule path pos) (findModule path pos) := by
  cases path with
  | nil => exact Keeps.fail _ pos
  | cons first rest =>
    refine Keeps.get_bind fun m hm => ?_
    cases imported : Dict.find? first m.imports with
    | some found =>
      exact walkPath_keeps pos [first] (hm.1.imports _ (Dict.mem_of_find? imported)) rest m hm
    | none =>
      cases own : m.library.module? first with
      | some found => exact walkPath_keeps pos [first] (hm.1.library.module? own) rest m hm
      | none => exact Keeps.fail _ pos m hm

end Eval

end Scripting
