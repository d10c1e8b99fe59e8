import Scripting.Proofs.Contract.Stage
import Scripting.Proofs.Course.Evaluation
import Scripting.Proofs.Course.Import

/-
Every evaluation is a course of acts. The survey of all watches finds the acts: they lead from where
an evaluation starts to where it ends, and a watch that minds none of the machines on the way does
not show. So the acts pass every machine that the evaluation passes.
-/
namespace Scripting

open Filter

theorem Rule.lending_free (looping : Bool) (c : Code) : Rule.lending (fun _ => True) looping c := by
  unfold Rule.lending
  split
  · exact Or.inr trivial
  · trivial

theorem Script.obeys_free (script : Script) : script.Obeys (Rule.lending fun _ => True) :=
  ⟨fun s _ => s.obeys Rule.lending_free false, fun _ _ s _ => s.obeys Rule.lending_free false⟩

def Kind.custody (K : Kind) : Custody where
  toStock := K
  lends _ := True
  fn name curry := by
    rw [K.fn]
    simp only [and_true, or_comm]
  lending f := ⟨fun _ s _ => s.obeys Rule.lending_free false, fun _ => K.codes f⟩

/-- The source was compiled and run as a module, and that gave `found`. -/
def Engine.Made (engine : Engine) (source : Text) (found : Module) : Prop :=
  ∃ fuel first script next m n, engine.compile false [source] first = (.ok script, next) ∧
    Eval.runModule (Eval.evaluator engine fuel) script m = .ok found n

def Engine.course (engine : Engine) (K : Kind) : Course engine where
  custody := K.custody
  made := engine.Made

theorem Native.apply_plain {K : Stock} (f : Native) (mode : Arithmetic) (fuel : Nat) (s : Store)
    {args : List Value} (h : ∀ v ∈ args, K.plain v) (untagged : ∀ tag, f ≠ .tagged tag) :
    (f.apply mode fuel s args).Plain K := by
  cases f with
  | core f => exact f.apply_plain mode s fuel h
  | host f => exact f.apply_plain s fuel h
  | tagged tag => exact absurd rfl (untagged tag)

def Watch.silent (vs : List Machine) : Set (Machine → Option Halt) := {w | ∀ m ∈ vs, w m = none}

namespace Survey

variable {engine : Engine} {K : Kind} (natives : ∀ m ∈ engine.nativeModules, m.Fair K)

def watches : Survey engine (Machine → Option Halt) where
  course := engine.course K
  silent vs := 𝓟 (Watch.silent vs)
  antitone sub := principal_mono.mpr fun _ quiet m hm => quiet m (sub hm)
  spent := True
  proper unspent := absurd trivial unspent
  ready _ := True
  kept _ _ := trivial
  natives := natives
  compiles _ _ script _ _ := script.obeys_free

variable {natives}

/-- A watch is heard only where it minds a machine. -/
theorem Yields.watched {σ α : Type} (view : σ → Machine) {good : α → σ → Prop}
    {bad : Halt → σ → Prop} (k : (Machine → Option Halt) → EStateM Halt σ α) (s : σ)
    (h : (watches natives).Yields (view s) view good bad fun w => k w s) :
    (watches natives).Yields (view s) view good bad
      fun w => Scripting.watched (fun t => w (view t)) (k w) s := by
  obtain ⟨acts, out, leads, ends, agree⟩ := h
  refine ⟨acts, out, leads, ends, eventually_principal.mpr fun w quiet => ?_⟩
  have ran : k w s = out := eventually_principal.mp agree w quiet
  have start : w (view s) = none := quiet _ Standing.mem_visits_start
  have last : w (view (ending out)) = none := by
    have passed := quiet _ (@Standing.mem_visits_after (view s).alone acts)
    rwa [leads.ends] at passed
  change Scripting.watched (fun t => w (view t)) (k w) s = out
  unfold Scripting.watched
  dsimp only
  rw [start, ran]
  cases out with
  | ok a t =>
    dsimp only [ending] at last ⊢
    rw [last]
  | error e t =>
    dsimp only [ending] at last ⊢
    rw [last]
    rfl

variable (natives)

theorem reads_watching (fuel : Nat) :
    (watches natives).Reads fun w => Eval.watching engine w fuel where
  reading g _ := ⟨g fuel, fuel, rfl, fun _ => trivial, Eventually.of_forall fun _ => rfl⟩
  native f s args hargs untagged :=
    ⟨f.apply engine.arithmetic fuel s args, f.apply_plain _ fuel s hargs untagged, fun _ => trivial,
      Eventually.of_forall fun _ => rfl⟩

theorem makes_watching (fuel : Nat) :
    (watches natives).Makes fun w => Eval.watching engine w fuel := by
  intro source first script next m found n vs compiled agree
  have ran : Eval.runModule (Eval.watching engine (fun _ => none) fuel) script m = .ok found n :=
    eventually_principal.mp agree (fun _ => none) fun _ _ => rfl
  rw [Eval.watching_none] at ran
  exact ⟨fuel, first, script, next, m, n, compiled, ran⟩

def next_watches : (watches natives).Next where
  ready _ := True
  kept _ _ := trivial
  counts _ _ _ _ _ _ := trivial

def inner_watches (shelf : Shelf) : (watches natives).Inner shelf where
  ready _ := True
  kept _ _ := trivial
  embarks _ _ _ _ _ _ _ _ := trivial

theorem evaluates_watching_of {fuel : Nat}
    (eval : ∀ e, (watches natives).Goes False (watches natives).plain
      fun w => (Eval.watching engine w fuel).eval e)
    (exec : ∀ s, (watches natives).Goes False (watches natives).plain
      fun w => (Eval.watching engine w fuel).exec s)
    (call : (watches natives).Calls (fun w => Eval.watching engine w fuel) none) :
    (watches natives).Evaluates fun w => Eval.watching engine w fuel := by
  have loop : ∀ condition body count, (watches natives).Goes False (fun _ => True) fun w =>
      Eval.repeatWhile (Eval.watching engine w fuel) condition body count := by
    intro condition body count
    induction count with
    | zero => exact Goes.stop trivial
    | succ count ih =>
      intro m hm
      refine turn_at (reads_watching natives fuel) (P := fun _ => True) hm (fun e _ => eval e) ?_
        fun n hn _ => ih n hn
      intro n _ hn
      exact (eval body n hn).mono (fun _ _ _ => trivial) fun _ _ h => ⟨trivial, h.2⟩
  refine ⟨reads_watching natives fuel, fun _ e _ => eval e, fun _ s _ => exec s, call,
    fun _ condition body _ _ => loop condition body fuel, fun path pos m hm => ?_⟩
  exact resolve_at (makes_watching natives fuel) (fun number => inner_watches natives ⟨number, path⟩)
    (fun _ => reads_watching natives fuel) (fun _ _ s _ => exec s) pos hm

theorem evaluates_watching (fuel : Nat) :
    (watches natives).Evaluates fun w => Eval.watching engine w fuel := by
  induction fuel with
  | zero =>
    apply evaluates_watching_of natives
    · exact fun e => Goes.stop trivial
    · exact fun s => Goes.stop trivial
    · exact fun name args exposedOnly pos this m _ _ hthis _ =>
        .const (.error .outOfFuel (this, m)) rfl ⟨rfl, hthis, trivial⟩
  | succ fuel ih =>
    apply evaluates_watching_of natives
    · intro e m hm
      have moves := evalExpr_moves (next_watches natives) ih (e.obeys Rule.lending_free false)
      exact Yields.watched (fun n => n) (fun w => Eval.evalExpr engine (Eval.watching engine w fuel) e)
        m (moves.goes m hm)
    · intro s m hm
      have moves := execStmt_moves (next_watches natives) ih (s.obeys Rule.lending_free false)
      exact Yields.watched (fun n => n) (fun w => Eval.execStmt engine (Eval.watching engine w fuel) s)
        m (moves.goes m hm)
    · intro name args exposedOnly pos this m hm hargs hthis _
      have called := callNamed_held ih.exec ih.call ih.toReads (fun never => by cases never) name
        hargs exposedOnly pos hthis (fun _ never => by cases never) hm
      exact Yields.watched Prod.snd (fun w => Eval.callNamed engine (Eval.watching engine w fuel) name
        args exposedOnly pos) (this, m) called

end Survey

/-- What happens when something is started on the stage `s`, with `m` as the first machine: acts lead
to its end, and pass every machine that it passes. -/
structure Engine.Traces {α : Type} (engine : Engine) (K : Kind) (entry : Evaluator → Staged α)
    (s : Stage) (m : Machine) (acts : List Act) (out : EStateM.Result Halt Machine α) : Prop where
  leads : (engine.course K).Leads m acts (ending out)
  result : entry engine.evaluator s = staged out
  passes : ∀ n, engine.Passes entry s n → n ∈ m.alone.visits acts

namespace Survey

variable {engine : Engine} {K : Kind} {natives : ∀ m ∈ engine.nativeModules, m.Fair K}

theorem traces_of_agree {α : Type} {library : Module} {depth : Nat} (k : Evaluator → Run α) {s : Stage}
    {acts : List Act} {out : EStateM.Result Halt Machine α}
    (leads : (engine.course K).Leads (s.start library depth) acts (ending out))
    (agree : ∀ᶠ w in (watches natives).silent ((s.start library depth).alone.visits acts),
      k (Eval.watching engine w ampleFuel) (s.start library depth) = out) :
    engine.Traces K (fun ev => Engine.onStage library depth (k ev)) s (s.start library depth) acts
      out := by
  have unheard : ∀ w ∈ Watch.silent ((s.start library depth).alone.visits acts),
      Engine.onStage library depth (k (Eval.watching engine w ampleFuel)) s = staged out := by
    intro w quiet
    rw [Engine.onStage_eq, eventually_principal.mp agree w quiet]
  have result : Engine.onStage library depth (k engine.evaluator) s = staged out := by
    have unwatched := unheard (fun _ => none) fun _ _ => rfl
    rwa [Eval.watching_none] at unwatched
  refine ⟨leads, result, ?_⟩
  rintro n ⟨w, elsewhere, differs⟩
  refine Classical.byContradiction fun unvisited => differs ?_
  have quiet : w ∈ Watch.silent _ := fun m hm => elsewhere m fun eq => unvisited (eq ▸ hm)
  exact (unheard w quiet).trans result.symm

theorem Yields.traces {α : Type} {library : Module} {depth : Nat} (k : Evaluator → Run α) {s : Stage}
    {good : α → Machine → Prop} {bad : Halt → Machine → Prop}
    (h : (watches natives).Yields (s.start library depth) (fun n => n) good bad
      fun w => k (Eval.watching engine w ampleFuel) (s.start library depth)) :
    ∃ acts out, engine.Traces K (fun ev => Engine.onStage library depth (k ev)) s
      (s.start library depth) acts out ∧ Ends good bad out := by
  obtain ⟨acts, out, leads, ends, agree⟩ := h
  exact ⟨acts, out, traces_of_agree k leads agree, ends⟩

end Survey

namespace Engine

variable {engine : Engine} {K : Kind} (natives : ∀ m ∈ engine.nativeModules, m.Fair K)
include natives

theorem traces_run (script : Script) {s : Stage} (tidy : s.Tidy K) :
    ∃ acts out, engine.Traces K (runBy script) s (s.start script.library 0) acts out := by
  have ready : (Survey.watches natives).Ready (s.start script.library 0) := ⟨tidy.start script 0, trivial⟩
  have obeys := script.obeys_free
  obtain ⟨acts, out, traces, -⟩ := Survey.Yields.traces
    (fun ev => Eval.runTop ev script.statements)
    (Survey.runTop_goes (Survey.evaluates_watching natives ampleFuel).exec obeys.statements _ ready)
  exact ⟨acts, out, traces⟩

theorem traces_supply (supplier : Supplier) (path : Text) (pos : Position) {s : Stage}
    (tidy : s.Tidy K) :
    ∃ acts out, engine.Traces K (fun ev => onStage {} 0 (Eval.supply engine ev supplier path pos)) s
      (s.start {} 0) acts out := by
  have start : (s.start {} 0).Tidy K := tidy.start {} 0
  have hev := Survey.evaluates_watching natives ampleFuel
  have yields := Survey.supply_at (Survey.makes_watching natives ampleFuel)
    (fun number => Survey.inner_watches natives ⟨number, path⟩) (fun _ => hev.toReads) (fun _ => hev.exec)
    supplier pos ⟨start, trivial⟩
  obtain ⟨acts, out, traces, -⟩ :=
    Survey.Yields.traces (fun ev => Eval.supply engine ev supplier path pos) yields
  exact ⟨acts, out, traces⟩

end Engine

end Scripting
