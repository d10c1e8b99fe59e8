import Scripting.Proofs.Parsing.Checks
import Scripting.Proofs.Regime.Evaluation

/-
Signals: `break`, `continue` and `return` leave the code they stand in, and are caught in the
function where they are raised. The parser counts loops for each body on its own, and evaluation
catches signals in the same places.
-/
namespace Scripting

def Rule.signals : Rule
  | looping, .stmt (.breakLoop _) => looping = true
  | looping, .stmt (.continueLoop _) => looping = true
  | _, _ => True

inductive Script.Accepted : Script → Prop where
  | parsed {settings : Grammar.Settings} {asExpression : Bool} {tokens : List PlacedToken}
      {nextClosure next : Nat} {script : Script}
      (h : Grammar.parse settings asExpression tokens nextClosure = (.ok script, next)) :
      Script.Accepted script
  | merged {first second : Script} (h : Script.Accepted first) (h' : Script.Accepted second) :
      Script.Accepted (first.merge second)
  | functionsOnly {script : Script} (h : Script.Accepted script) :
      Script.Accepted script.withoutStatements

namespace Script

theorem Obeys.merge {rule : Rule} {first second : Script} (h : first.Obeys rule)
    (h' : second.Obeys rule) : (first.merge second).Obeys rule where
  statements := List.forall_mem_append.mpr ⟨h.statements, h'.statements⟩
  functions f hf := (Dict.mem_merge hf).elim (h'.functions f) (h.functions f)

theorem Obeys.withoutStatements {rule : Rule} {script : Script} (h : script.Obeys rule) :
    script.withoutStatements.Obeys rule :=
  ⟨fun _ never => (by cases never), h.functions⟩

/-- What the parser accepts raises no signal of a loop outside of one. -/
theorem Accepted.signals {script : Script} (h : script.Accepted) : script.Obeys Rule.signals := by
  induction h with
  | parsed h =>
    have obeys : Script.Obeys (Grammar.rule fun _ => True) _ :=
      Grammar.parse_obeys (fun _ _ _ => trivial) h
    refine obeys.mono ?_
    intro looping c obeyed
    unfold Rule.signals
    split
    · exact obeyed
    · exact obeyed
    · trivial
  | merged h h' ih ih' => exact ih.merge ih'
  | functionsOnly h ih => exact ih.withoutStatements

end Script

/-- A module whose script functions, and those of its own modules, have loops around all signals of
loops. -/
inductive Module.Settled : Module → Prop where
  | intro {m : Module}
      (functions : ∀ f ∈ m.functions, ∀ g, f.2.body = .script g → g.Obeys Rule.signals)
      (modules : ∀ e ∈ m.modules, Module.Settled e.2) : Module.Settled m

structure World.Settled (w : World) : Prop where
  table : ∀ e ∈ w.table, e.2.Settled
  loaded : ∀ e ∈ w.loaded, e.2.Settled

structure Machine.Settled (m : Machine) : Prop where
  world : m.world.Settled
  library : m.library.Settled
  root : m.root.Settled
  imports : ∀ e ∈ m.imports, e.2.Settled

def Concludes {σ α : Type} (settled : σ → Prop) (Q : α → Prop) : EStateM.Result Halt σ α → Prop :=
  Ends (fun a s => settled s ∧ Q a) (fun h s => h.isFault = true ∧ settled s)

def Regime.free (engine : Engine) : Regime engine where
  plain _ := True
  fits _ := True
  ordered _ := True
  lends _ := False
  atom _ _ := trivial
  string _ := Iff.rfl
  array _ := by simp
  map _ := by simp
  fn _ _ := by simp
  shared _ _ _ := trivial
  resized _ _ := trivial
  empty := trivial
  inserted _ := trivial
  erased _ := trivial
  replaced _ _ _ := trivial
  checked _ _ _ := trivial
  typeNames _ := trivial
  unnamed _ h := h.elim
  natives _ _ _ _ _ _ := Or.inr fun _ => trivial

section

variable {engine : Engine}

theorem Regime.free_rule : (Regime.free engine).rule = Rule.signals := by
  funext looping c
  cases c with
  | expr e => cases e <;> simp [Regime.rule, Rule.signals, Regime.free]
  | stmt s => cases s <;> simp [Regime.rule, Rule.signals, Regime.roomy, Regime.free]

theorem Module.sound_free_iff {m : Module} : m.Sound (Regime.free engine) ↔ m.Settled := by
  constructor
  · intro h
    induction h with
    | intro functions values modules ih =>
      refine .intro (fun f hf g body => ?_) ih
      rw [← @Regime.free_rule engine]
      exact (functions f hf).script g body
  · intro h
    induction h with
    | intro functions modules ih =>
      refine .intro (fun f hf => ⟨fun g body => ?_, fun _ _ => Or.inr fun _ => trivial⟩)
        (fun _ _ => trivial) ih
      rw [Regime.free_rule]
      exact functions f hf g body

theorem World.sound_free_iff {w : World} : w.Sound (Regime.free engine) ↔ w.Settled := by
  constructor
  · intro h
    exact ⟨fun e he => Module.sound_free_iff.mp (h.table e he),
      fun e he => Module.sound_free_iff.mp (h.loaded e he)⟩
  · intro h
    refine ⟨fun _ => trivial, fun e he => Module.sound_free_iff.mpr (h.table e he),
      fun e he => Module.sound_free_iff.mpr (h.loaded e he), ?_⟩
    intro e _ nextClosure script next compiled
    rw [Regime.free_rule]
    exact (Script.Accepted.parsed compiled).signals

theorem Machine.sound_free_iff {m : Machine} : m.Sound (Regime.free engine) ↔ m.Settled := by
  constructor
  · intro h
    exact ⟨World.sound_free_iff.mp h.world, Module.sound_free_iff.mp h.library,
      Module.sound_free_iff.mp h.root, fun e he => Module.sound_free_iff.mp (h.imports e he)⟩
  · intro h
    exact ⟨World.sound_free_iff.mpr h.world, fun _ _ => Or.inr trivial, fun _ _ => trivial,
      Module.sound_free_iff.mpr h.library, Module.sound_free_iff.mpr h.root,
      fun e he => Module.sound_free_iff.mpr (h.imports e he)⟩

theorem Stage.sound_free {s : Stage} (h : s.world.Settled) : s.Sound (Regime.free engine) :=
  ⟨World.sound_free_iff.mpr h, fun _ _ => Or.inr trivial, fun _ _ => trivial⟩

theorem Regime.not_spoils_free {h : Halt} : ¬ (Regime.free engine).spoils h :=
  fun spoilt => spoilt.2 fun _ => trivial

theorem concludes_of_staging {α : Type} {Q Q' : α → Prop} {r : EStateM.Result Halt Stage α}
    (h : (Regime.free engine).Staging Q r) (weaker : ∀ a, Q a → Q' a) :
    Concludes (fun s => s.world.Settled) Q' r := by
  refine h.mono ?_ ?_
  · exact fun a s hs => ⟨World.sound_free_iff.mp hs.1.world, weaker a hs.2⟩
  · intro e s hs
    exact ⟨hs.1, World.sound_free_iff.mp (hs.2.resolve_left Regime.not_spoils_free).world⟩

theorem concludes_of_does {α : Type} {Q : α → Prop} {k : Run α}
    (h : (Regime.free engine).Does .call Q k) {m : Machine} (hm : m.Settled) :
    Concludes Machine.Settled (fun _ => True) (k m) := by
  refine (h m (Machine.sound_free_iff.mpr hm)).mono ?_ ?_
  · exact fun _ n hn => ⟨Machine.sound_free_iff.mp hn.1, trivial⟩
  · intro e n hn
    exact ⟨Regime.fault_of_call hn.1,
      Machine.sound_free_iff.mp (hn.2.resolve_left Regime.not_spoils_free)⟩

theorem concludes_of_holds {α φ : Type} {P : φ → Prop} {Q : α → Prop} {k : Held φ α}
    (h : (Regime.free engine).Holds .call P Q k) {x : φ} (hx : P x) {m : Machine} (hm : m.Settled) :
    Concludes (fun s : φ × Machine => s.2.Settled) (fun _ => True) (k (x, m)) := by
  refine (h x m (Machine.sound_free_iff.mpr hm) hx).mono ?_ ?_
  · exact fun _ s hs => ⟨Machine.sound_free_iff.mp hs.2.1, trivial⟩
  · intro e s hs
    exact ⟨Regime.fault_of_call hs.1,
      Machine.sound_free_iff.mp (hs.2.resolve_left Regime.not_spoils_free).2⟩

end

/-- No signal of a loop or a function gets out of what the parser accepts: whatever a host starts
ends in a value or a fault, and so do, wherever a run has got to, top-level statements, the bodies of
functions, and all calls of functions by name or by pointer. -/
theorem no_signal_escapes (engine : Engine) {script : Script} (accepted : script.Accepted) :
    (∀ s : Stage, s.world.Settled →
      (∀ asExpression pieces, Concludes (fun t => t.world.Settled) Script.Accepted
        (engine.compileOn asExpression pieces s)) ∧
      Concludes (fun t => t.world.Settled) (fun _ => True) (engine.run script s) ∧
      (∀ name args, Concludes (fun t => t.world.Settled) (fun _ => True)
        (engine.callFunction script name args s)) ∧
      (∀ fn args, Concludes (fun t => t.world.Settled) (fun _ => True)
        (engine.callPointer script fn args s)) ∧
      Concludes (fun t => t.world.Settled) Module.Settled (engine.makeModule script s) ∧
      ∀ path pos, Concludes (fun t => t.world.Settled) (fun found => found.supplied.Settled)
        (engine.resolveModule path pos s)) ∧
    ∀ fuel (m : Machine), m.Settled →
      Concludes Machine.Settled (fun _ => True)
        (Eval.runTop (Eval.evaluator engine fuel) script.statements m) ∧
      (∀ f ∈ script.functions, Concludes Machine.Settled (fun _ => True)
        (Eval.runBody (Eval.evaluator engine fuel) f.2.body m)) ∧
      (∀ name args exposedOnly pos this, Concludes (fun s => s.2.Settled) (fun _ => True)
        (Eval.callNamedAt engine fuel name args exposedOnly pos (this, m))) ∧
      ∀ fn args pos this, Concludes (fun s => s.2.Settled) (fun _ => True)
        (Eval.callBack (Eval.evaluator engine fuel) pos fn args (this, m)) := by
  have obeys : script.Obeys (Regime.free engine).rule := by
    rw [Regime.free_rule]
    exact accepted.signals
  have plain : ∀ args, (Regime.free engine).Plain args := fun _ _ _ => trivial
  have object : ∀ this, (Regime.free engine).Object this := fun _ _ _ => trivial
  refine ⟨fun s hs => ?_, fun fuel m hm => ?_⟩
  · have stage : s.Sound (Regime.free engine) := Stage.sound_free hs
    refine ⟨fun asExpression pieces => ?_, ?_, fun name args => ?_, fun fn args => ?_, ?_,
      fun path pos => ?_⟩
    · exact concludes_of_staging
        (Regime.compileOn_staging stage fun _ _ _ compiled => .parsed compiled) fun _ h => h
    · exact concludes_of_staging (Regime.run_staging obeys stage) fun _ _ => trivial
    · exact concludes_of_staging
        (Regime.callFunction_staging obeys stage name (plain args).passing) fun _ _ => trivial
    · exact concludes_of_staging
        (@Regime.callPointer_staging _ _ _ obeys _ stage fn trivial args (plain args)) fun _ _ => trivial
    · exact concludes_of_staging (Regime.makeModule_staging obeys stage)
        fun _ sound => Module.sound_free_iff.mp sound
    · exact concludes_of_staging (Regime.resolveModule_staging stage path pos)
        fun _ sound => Module.sound_free_iff.mp sound
  · have evaluates := (Regime.free engine).evaluates fuel
    refine ⟨?_, fun f hf => ?_, fun name args exposedOnly pos this => ?_, fun fn args pos this => ?_⟩
    · exact concludes_of_does (Regime.runTop_does evaluates obeys.statements) hm
    · exact concludes_of_does (Regime.runBody_does evaluates (obeys.functions f hf)) hm
    · exact concludes_of_holds (evaluates.call name args exposedOnly pos ((plain args).carries name))
        (object this) hm
    · exact concludes_of_holds (Regime.callBack_holds evaluates pos trivial (plain args)) (object this) hm

/-- `loop { break }`, from its tokens to the end of its run. -/
theorem no_signal_escapes_loop :
    Grammar.parse {} false [(.symbol .kwLoop, ⟨1, 1⟩), (.symbol .leftBrace, ⟨1, 6⟩),
        (.symbol .kwBreak, ⟨1, 8⟩), (.symbol .rightBrace, ⟨1, 14⟩), (.eof, ⟨1, 15⟩)] 0 =
      (.ok ⟨[.loop ⟨1, 1⟩ none (.block ⟨1, 6⟩ [.breakLoop ⟨1, 8⟩])], []⟩, 0) ∧
    Concludes (fun t => t.world.Settled) (fun _ => True)
      (Engine.standard.run ⟨[.loop ⟨1, 1⟩ none (.block ⟨1, 6⟩ [.breakLoop ⟨1, 8⟩])], []⟩
        { world := {} }) := by
  have parsed : Grammar.parse {} false [(.symbol .kwLoop, ⟨1, 1⟩), (.symbol .leftBrace, ⟨1, 6⟩),
      (.symbol .kwBreak, ⟨1, 8⟩), (.symbol .rightBrace, ⟨1, 14⟩), (.eof, ⟨1, 15⟩)] 0 =
      (.ok ⟨[.loop ⟨1, 1⟩ none (.block ⟨1, 6⟩ [.breakLoop ⟨1, 8⟩])], []⟩, 0) := rfl
  have fresh : World.Settled {} := ⟨fun _ never => (by cases never), fun _ never => (by cases never)⟩
  exact ⟨parsed, ((no_signal_escapes Engine.standard (.parsed parsed)).1 _ fresh).2.1⟩

end Scripting
