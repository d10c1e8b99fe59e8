import Scripting.Proofs.Contract.Evaluation
import Scripting.Stage

/-
What a host starts, side by side: the statements of a script, one of its functions, or a function
pointer. A machine is passed on the way if a watch that stops there, and nowhere else, makes a
difference.
-/
namespace Scripting

def Stage.start (s : Stage) (library : Module) (depth : Nat) : Machine :=
  { world := s.world, scope := s.scope, this := s.this, library, root := library, depth }

def Machine.stage (m : Machine) : Stage := { world := m.world, scope := m.scope, this := m.this }

structure Stage.Tidy (K : Stock) (s : Stage) : Prop where
  world : s.world.Tidy K
  scope : ∀ e ∈ s.scope, K.passes e.value
  this : ∀ v, s.this = some v → K.plain v

theorem Stage.Tidy.start {K : Kind} {s : Stage} (h : s.Tidy K) (script : Script) (depth : Nat) :
    (s.start script.library depth).Tidy K where
  world := h.world
  scope := h.scope
  this := h.this
  library := Module.fair_ofFunctions K script.functions
  root := Module.fair_ofFunctions K script.functions
  imports _ none := by cases none

theorem Machine.Tidy.stage {K : Stock} {m : Machine} (h : m.Tidy K) : m.stage.Tidy K :=
  ⟨h.world, h.scope, h.this⟩

def staged {α : Type} : EStateM.Result Halt Machine α → EStateM.Result Halt Stage α
  | .ok a m => .ok a m.stage
  | .error h m => .error h m.stage

theorem staged_eq {α : Type} (r : EStateM.Result Halt Machine α) :
    staged r = inState Machine.stage r := by
  cases r <;> rfl

namespace Engine

theorem onStage_eq {α : Type} (library : Module) (depth : Nat) (k : Run α) (s : Stage) :
    onStage library depth k s = staged (k (s.start library depth)) := by
  unfold onStage staged Stage.start
  cases k _ <;> rfl

variable (engine : Engine)

def runBy (script : Script) (ev : Evaluator) : Staged Value :=
  onStage script.library 0 (Eval.runTop ev script.statements)

def callBy (script : Script) (name : Text) (args : List Value) (ev : Evaluator) : Staged Value :=
  match script.library.scriptFn? name args.length true with
  | none => throw (.cause (.functionNotFound name) .nowhere)
  | some f => onStage script.library 1 (Run.block do
      modify fun m => { m with scope := Eval.bindParams f.params args m.scope }
      Eval.runBody ev f.body)

def pointerBy (script : Script) (fn : Value) (args : List Value) (ev : Evaluator) : Staged Value :=
  onStage script.library 0 (Held.drop none (Eval.callBack ev .nowhere fn args))

theorem runBy_evaluator (script : Script) : runBy script engine.evaluator = engine.run script := rfl

theorem callBy_evaluator (script : Script) (name : Text) (args : List Value) :
    callBy script name args engine.evaluator = engine.callFunction script name args := rfl

theorem pointerBy_evaluator (script : Script) (fn : Value) (args : List Value) :
    pointerBy script fn args engine.evaluator = engine.callPointer script fn args := rfl

/-- The machine `m` is passed on the way from `s`. -/
def Passes {σ α : Type} (entry : Evaluator → EStateM Halt σ α) (s : σ) (m : Machine) : Prop :=
  ∃ w : Machine → Option Halt, (∀ n, n ≠ m → w n = none) ∧
    entry (Eval.watching engine w ampleFuel) s ≠ entry engine.evaluator s

theorem passes_start (script : Script) {stmt : Stmt} {rest : List Stmt}
    (statements : script.statements = stmt :: rest) (s : Stage) :
    engine.Passes (runBy script) s (s.start script.library 0) := by
  classical
  let trap (h : Halt) (n : Machine) : Option Halt :=
    if n = s.start script.library 0 then some h else none
  have elsewhere : ∀ h n, n ≠ s.start script.library 0 → trap h n = none := fun h n ne => if_neg ne
  obtain ⟨fuel, enough⟩ : ∃ fuel, ampleFuel = fuel + 1 := Nat.exists_eq_succ_of_ne_zero (by decide)
  have sprung : ∀ h, (∀ v, h ≠ .returning v) →
      runBy script (Eval.watching engine (trap h) ampleFuel) s = .error h s := by
    intro h unreturned
    have first : (Eval.watching engine (trap h) ampleFuel).exec stmt (s.start script.library 0) =
        .error h (s.start script.library 0) := by
      rw [enough]
      change watched _ _ _ = _
      unfold watched
      rw [show trap h (s.start script.library 0) = some h from if_pos rfl]
    have all : Eval.execAll (Eval.watching engine (trap h) ampleFuel).exec .unit script.statements
        (s.start script.library 0) = .error h (s.start script.library 0) := by
      rw [statements]
      change EStateM.bind _ _ _ = _
      unfold EStateM.bind
      rw [first]
    rw [runBy, onStage_eq, Eval.runTop_eq, all]
    cases h with
    | returning v => exact absurd rfl (unreturned v)
    | _ => rfl
  -- Of two different halts, at least one is not how the run ends anyway.
  by_cases same : runBy script engine.evaluator s = .error .outOfFuel s
  · refine ⟨trap .breaking, elsewhere _, ?_⟩
    rw [sprung .breaking (fun v eq => by cases eq), same]
    intro eq
    cases eq
  · refine ⟨trap .outOfFuel, elsewhere _, ?_⟩
    rw [sprung .outOfFuel (fun v eq => by cases eq)]
    exact fun eq => same eq.symm

end Engine

namespace Contract

variable {engine : Engine}

def strict {K : Kind} (discipline : Discipline engine K)
    (natives : ∀ m ∈ engine.nativeModules, m.Fair K) : Contract engine where
  kind := K
  discipline := discipline
  mode := engine.arithmetic
  excused _ := False
  returning _ h := h
  breaking h := h
  continuing h := h
  missing _ _ h := h
  located _ _ h := h
  natives := natives
  calculates _ _ _ _ := Or.inr rfl

variable {C : Contract engine}

theorem stride_bindParams {m : Machine} (hm : C.Inv m) (params : List Text) {args : List Value}
    (hargs : C.Passing args) :
    C.Stride m { m with scope := Eval.bindParams params args m.scope } := by
  induction params generalizing args m with
  | nil => exact (step_refl hm).stride
  | cons name rest ih =>
    cases args with
    | nil => exact (step_refl hm).stride
    | cons v args =>
      have first := step_declare hm name (hargs v List.mem_cons_self) false
      exact first.trans (ih first.2 hargs.tail)

/-- How a host gets back what an evaluation from `m` leaves. -/
abbrev Staging {α : Type} (C : Contract engine) (kept : Machine → Prop) (Q : α → Prop)
    (r r' : EStateM.Result Halt Stage α) : Prop :=
  Agree C.excused (fun a t => ∃ n, kept n ∧ t = n.stage ∧ Q a)
    (fun h t => ∃ n, kept n ∧ t = n.stage ∧ C.Signal h) r r'

theorem staging {α : Type} {kept : Machine → Prop} {Q : α → Prop}
    {r r' : EStateM.Result Halt Machine α}
    (h : Agree C.excused (fun a n => kept n ∧ Q a) (fun e n => kept n ∧ C.Signal e) r r') :
    C.Staging kept Q (staged r) (staged r') := by
  rw [staged_eq, staged_eq]
  exact h.map (fun _ n hn => ⟨n, hn.1, rfl, hn.2⟩) fun _ n hn => ⟨n, hn.1, rfl, hn.2⟩

variable {ev ev' : Evaluator} (hev : C.Evaluators ev ev') {script : Script} {s : Stage}
include hev

theorem runBy_staging (start : C.Inv (s.start script.library 0)) :
    C.Staging (C.Stride (s.start script.library 0)) C.kind.plain (Engine.runBy script ev s)
      (Engine.runBy script ev' s) := by
  unfold Engine.runBy
  rw [Engine.onStage_eq, Engine.onStage_eq]
  exact staging (Eval.runTop_grows hev script.statements _ start)

theorem callBy_staging (start : C.Inv (s.start script.library 1)) (name : Text)
    {args : List Value} (hargs : C.Passing args) :
    C.Staging (C.Step (s.start script.library 1)) C.kind.plain (Engine.callBy script name args ev s)
      (Engine.callBy script name args ev' s) := by
  unfold Engine.callBy
  cases script.library.scriptFn? name args.length true with
  | none => exact .error ⟨_, step_refl start, rfl, signal_of_fault rfl⟩
  | some f =>
    dsimp only
    rw [Engine.onStage_eq, Engine.onStage_eq]
    have params := Grows.change (C := C) fun m hm => stride_bindParams hm f.params hargs
    have called := Grows.bind params fun _ _ => (Eval.runBody_keeps hev f.body).grows
    exact staging (called.block _ start)

theorem pointerBy_staging (start : C.Inv (s.start script.library 0)) {fn : Value}
    (hfn : C.kind.plain fn) {args : List Value} (hargs : C.Passing args) :
    C.Staging (C.Step (s.start script.library 0)) C.kind.plain
      (Engine.pointerBy script fn args ev s) (Engine.pointerBy script fn args ev' s) := by
  unfold Engine.pointerBy
  rw [Engine.onStage_eq, Engine.onStage_eq]
  exact staging (Eval.callAlone_keeps hev .nowhere hfn hargs _ start)

theorem makeModule_staging {library : Module} (start : C.Inv (s.start library 0)) (script : Script) :
    C.Staging (C.Step (s.start library 0)) (fun found => found.Fair C.kind)
      (Engine.onStage library 0 (Eval.runModule ev script) s)
      (Engine.onStage library 0 (Eval.runModule ev' script) s) := by
  rw [Engine.onStage_eq, Engine.onStage_eq]
  exact staging (Eval.runModule_keeps hev script _ start)

theorem resolveModule_staging {library : Module} (start : C.Inv (s.start library 0)) (path : Text)
    (pos : Position) :
    C.Staging (C.Step (s.start library 0)) (fun found => found.supplied.Fair C.kind)
      (Engine.onStage library 0 (Eval.resolve engine ev path pos) s)
      (Engine.onStage library 0 (Eval.resolve (engine.inMode C.mode) ev' path pos) s) := by
  rw [Engine.onStage_eq, Engine.onStage_eq]
  exact staging (Eval.resolve_keeps hev path pos _ start)

omit hev in
theorem Staging.stride {α : Type} {Q : α → Prop} {m : Machine} {r r' : EStateM.Result Halt Stage α}
    (h : C.Staging (C.Step m) Q r r') : C.Staging (C.Stride m) Q r r' := by
  refine h.mono ?_ ?_
  · rintro a t ⟨n, step, rest⟩
    exact ⟨n, step.stride, rest⟩
  · rintro e t ⟨n, step, rest⟩
    exact ⟨n, step.stride, rest⟩

end Contract

namespace Engine

variable {engine : Engine} {K : Kind} {D : Discipline engine K}
  {natives : ∀ m ∈ engine.nativeModules, m.Fair K}

theorem Passes.inv {σ α : Type} {entry : Evaluator → EStateM Halt σ α} {s : σ} {m : Machine}
    (passes : engine.Passes entry s m)
    (agrees : ∀ ev', (Contract.strict D natives).Evaluators engine.evaluator ev' →
      ∃ good bad, Agree (fun _ => False) good bad (entry engine.evaluator s) (entry ev' s)) :
    (Contract.strict D natives).Inv m := by
  refine Classical.byContradiction fun broken => ?_
  obtain ⟨w, elsewhere, differs⟩ := passes
  have silent : ∀ n, (Contract.strict D natives).Inv n → w n = none := by
    intro n hn
    refine elsewhere n ?_
    rintro rfl
    exact broken hn
  have watching := Eval.evaluators_watching (Contract.strict D natives) silent ampleFuel
  obtain ⟨good, bad, agree⟩ := agrees _ watching
  exact differs (agree.eq fun _ _ _ => id)

end Engine

end Scripting
