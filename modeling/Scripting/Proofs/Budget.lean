import Mathlib.Order.Filter.AtTopBot.Basic
import Scripting.Proofs.Course.Lending
import Scripting.Proofs.Course.Loading
import Scripting.Proofs.Course.Watch
import Scripting.Proofs.Regime.Sizes

/-
Evaluation with a limit of operations comes to an end. Every statement and every expression counts an
operation before it does anything else, so what it contains has a smaller budget left. Calls add
nothing of their own: the statements of a body count themselves, and natives that call back pass on
less than they are given. A script that is imported starts with a budget of its own, but there are
fewer scripts left that it can start.
-/
namespace Scripting

open Filter

/-- With enough fuel a native function comes to an end, and always to the same one. -/
def Native.Returns (mode : Arithmetic) (f : Native) (s : Store) (args : List Value) : Prop :=
  ∃ least answer, answer.result ≠ .error .outOfFuel ∧
    ∀ fuel, least ≤ fuel → f.apply mode fuel s args = answer

namespace Eval

/-- Evaluation in which natives answer in a given way, which may depend on the fuel that is left. -/
def answering (engine : Engine) (answer : Nat → Native → Store → List Value → Applied) :
    Nat → Evaluator
  | 0 => ⟨0, answer 0, fun _ => throw .outOfFuel, fun _ => throw .outOfFuel,
      fun _ _ _ _ => throw .outOfFuel⟩
  | n + 1 => ⟨n + 1, answer (n + 1), evalExpr engine (answering engine answer n),
      execStmt engine (answering engine answer n), callNamed engine (answering engine answer n)⟩

theorem answering_apply (engine : Engine) (fuel : Nat) :
    answering engine (Native.apply engine.arithmetic) fuel = evaluator engine fuel := by
  induction fuel with
  | zero => rfl
  | succ n ih =>
    unfold answering
    rw [ih]
    rfl

variable {engine : Engine} {answer : Nat → Native → Store → List Value → Applied}

theorem answering_fuel (fuel : Nat) : (answering engine answer fuel).fuel = fuel := by
  cases fuel <;> rfl

theorem answering_native (fuel : Nat) : (answering engine answer fuel).native = answer fuel := by
  cases fuel <;> rfl

end Eval

/-- Natives that answer within a custody, and with enough fuel always in the same way. -/
structure Engine.Answers (engine : Engine) (answer : Nat → Native → Store → List Value → Applied) :
    Prop where
  steady : ∀ f s args, (∀ v ∈ args, v.Lent engine.Unnamed) → (∀ tag, f ≠ .tagged tag) →
    ∃ a : Applied, a.Plain engine.lending ∧ a.result ≠ .error .outOfFuel ∧
      ∀ᶠ fuel in atTop, answer fuel f s args = a

namespace Survey

variable {engine : Engine} (answer : Nat → Native → Store → List Value → Applied)
  (natives : ∀ m ∈ engine.nativeModules, m.Fair engine.lending) (spares : engine.SparesClosures)

/-- A budget: how many scripts can still be started, and how many operations are left, both with one
to spare. -/
structure Budget where
  scripts : Nat
  operations : Nat

structure Budget.Covers (engine : Engine) (b : Budget) (m : Machine) : Prop where
  scripts : m.world.unstarted.card < b.scripts
  operations : engine.limits.operations - m.operations < b.operations

theorem Budget.Covers.since {engine : Engine} {b : Budget} {m n : Machine} (h : b.Covers engine m)
    (since : m.Since n) : b.Covers engine n where
  scripts := by
    have same : n.world.unstarted = m.world.unstarted := by
      unfold World.unstarted
      rw [since.sources, since.loading]
    rw [same]
    exact h.scripts
  operations := by
    have more := since.operations
    have left := h.operations
    omega

def fueled (b : Budget) : Survey engine Nat where
  course := ⟨engine.lending, fun source found => ∃ first script next m n,
    engine.compile false [source] first = (.ok script, next) ∧
      ∃ fuel, Eval.runModule (Eval.answering engine answer fuel) script m = .ok found n⟩
  silent _ := atTop
  antitone _ := le_refl _
  spent := False
  proper _ _ h := Value.Lent.proper h
  ready := b.Covers engine
  kept since covers := covers.since since
  natives := natives
  compiles _ _ _ _ compiled := Engine.compiled_lending compiled spares

variable {answer natives spares} {b : Budget}

abbrev members (engine : Engine) (answer : Nat → Native → Store → List Value → Applied) :
    Nat → Evaluator := Eval.answering engine answer

section Families

variable {σ α : Type} {m : Machine} {view : σ → Machine} {good : α → σ → Prop} {bad : Halt → σ → Prop}
  {r r' : Nat → EStateM.Result Halt σ α}

theorem Yields.congr_fuel (h : (fueled answer natives spares b).Yields m view good bad r')
    (same : ∀ᶠ fuel in atTop, r fuel = r' fuel) :
    (fueled answer natives spares b).Yields m view good bad r := by
  obtain ⟨acts, out, leads, ends, agree⟩ := h
  refine ⟨acts, out, leads, ends, ?_⟩
  have agree : ∀ᶠ fuel in atTop, r' fuel = out := agree
  change ∀ᶠ fuel in atTop, r fuel = out
  filter_upwards [agree, same] with fuel ran eq
  exact eq.trans ran

/-- One unit of fuel more makes no difference. -/
theorem Yields.sooner
    (h : (fueled answer natives spares b).Yields m view good bad fun fuel => r (fuel + 1)) :
    (fueled answer natives spares b).Yields m view good bad r := by
  obtain ⟨acts, out, leads, ends, agree⟩ := h
  refine ⟨acts, out, leads, ends, ?_⟩
  obtain ⟨least, ran⟩ := eventually_atTop.mp (show ∀ᶠ fuel in atTop, r (fuel + 1) = out from agree)
  refine eventually_atTop.mpr ⟨least + 1, fun fuel enough => ?_⟩
  obtain ⟨less, rfl⟩ : ∃ less, fuel = less + 1 := ⟨fuel - 1, by omega⟩
  exact ran less (by omega)

end Families

theorem reads_fueled (answers : engine.Answers answer) :
    (fueled answer natives spares b).Reads (members engine answer) where
  reading g settles := by
    obtain ⟨effort, out, known, settled⟩ := settles.resolve_left id
    refine ⟨out, effort, settled effort (Nat.le_refl _), fun eq => absurd eq known, ?_⟩
    change ∀ᶠ fuel in atTop, g (Eval.answering engine answer fuel).fuel = out
    filter_upwards [eventually_ge_atTop effort] with fuel enough
    rw [Eval.answering_fuel]
    exact settled fuel enough
  native f s args hargs untagged := by
    obtain ⟨a, plain, fueled, agree⟩ := answers.steady f s args hargs untagged
    refine ⟨a, plain, fun eq => absurd eq fueled, ?_⟩
    change ∀ᶠ fuel in atTop, (Eval.answering engine answer fuel).native f s args = a
    filter_upwards [agree] with fuel ran
    rw [Eval.answering_native]
    exact ran

theorem makes_fueled : (fueled answer natives spares b).Makes (members engine answer) := by
  intro source first script next m found n vs compiled agree
  obtain ⟨fuel, ran⟩ := (show ∀ᶠ fuel in atTop, _ from agree).exists
  exact ⟨first, script, next, m, n, compiled, fuel, ran⟩

def Grows (count : Nat → Nat) : Prop := ∀ k, ∀ᶠ fuel in atTop, k ≤ count fuel

def Loops (L : Survey engine Nat) (ev : Nat → Evaluator) : Prop :=
  ∀ looping condition body, (∀ e, condition = some e → L.Permits looping (.expr e)) →
    L.Permits true (.expr body) → ∀ count, Grows count →
      L.Goes False (fun _ => True) fun fuel =>
        Eval.repeatWhile (ev fuel) condition body (count fuel)

structure Finishes (L : Survey engine Nat) (ev : Nat → Evaluator) : Prop where
  evaluates : L.Evaluates ev
  loops : L.Loops ev

/-- Where there is no machine there is nothing to show. -/
theorem finishes_never (answers : engine.Answers answer) (never : ∀ m, ¬ b.Covers engine m) :
    (fueled answer natives spares b).Finishes (members engine answer) := by
  refine ⟨⟨reads_fueled answers, ?_, ?_, ?_, ?_, ?_⟩, ?_⟩
  · exact fun _ _ _ m hm => absurd hm.ready (never m)
  · exact fun _ _ _ m hm => absurd hm.ready (never m)
  · exact fun _ _ _ _ _ m hm => absurd hm.ready (never m)
  · exact fun _ _ _ _ _ m hm => absurd hm.ready (never m)
  · exact fun _ _ m hm => absurd hm.ready (never m)
  · exact fun _ _ _ _ _ _ _ m hm => absurd hm.ready (never m)

section Step

variable (limited : 0 < engine.limits.operations)

def overrun (m : Machine) : Machine := { m with operations := m.operations + 1 }

section Overrun

variable {ev : Evaluator} {m : Machine} (spent : engine.limits.operations ≤ m.operations)
include limited spent

theorem tick_overrun (pos : Position) :
    Eval.tick engine pos m = .error (.cause .tooManyOperations pos) (overrun m) := by
  change (if 0 < engine.limits.operations ∧ engine.limits.operations < m.operations + 1 then _ else _ :
    Run Unit) (overrun m) = _
  exact congrFun (if_pos ⟨limited, Nat.lt_succ_of_le spent⟩) (overrun m)

theorem evalExpr_overrun (e : Expr) :
    Eval.evalExpr engine ev e m = .error (.cause .tooManyOperations e.pos) (overrun m) :=
  bind_of_error (tick_overrun limited spent e.pos) _

end Overrun

theorem repeatWhile_overrun {ev : Evaluator} {m n : Machine}
    (fails : ∀ e, ev.eval e m = .error (.cause .tooManyOperations e.pos) n)
    (condition : Option Expr) (body : Expr) (count : Nat) :
    Eval.repeatWhile ev condition body (count + 1) m =
      .error (.cause .tooManyOperations (condition.getD body).pos) n := by
  cases condition with
  | some e => exact bind_of_error (fails e) _
  | none =>
    have turned : Eval.loopTurn (ev.eval body) m = .error (.cause .tooManyOperations body.pos) n := by
      unfold Eval.loopTurn
      rw [fails body]
      rfl
    exact bind_of_error turned _

include limited in
theorem repeatWhile_spent {condition : Option Expr} {body : Expr} {count : Nat → Nat}
    (grows : Grows count) {m : Machine} (spent : engine.limits.operations ≤ m.operations) :
    (fueled answer natives spares b).At False m (fun _ _ => True) fun fuel =>
      Eval.repeatWhile (members engine answer fuel) condition body (count fuel) m := by
  have counted : (fueled answer natives spares b).course.Leads m
      [.idle (m.operations + 1) m.world.progress m.world.nextClosure m.world.messages] (overrun m) :=
    .act ⟨Nat.le_succ _, Nat.le_refl _⟩ rfl
      (m.onward_idle (Nat.le_succ _) (Nat.le_refl _) m.world.progress m.world.messages)
  refine Yields.after counted (.settled
    (.error (.cause .tooManyOperations (condition.getD body).pos) (overrun m)) ?_ rfl
    ⟨False.elim, trivial⟩)
  change ∀ᶠ fuel in atTop, _
  filter_upwards [grows 1, eventually_ge_atTop 1] with fuel enough fueled
  obtain ⟨turns, eq⟩ : ∃ turns, count fuel = turns + 1 := ⟨count fuel - 1, by omega⟩
  obtain ⟨less, rfl⟩ : ∃ less, fuel = less + 1 := ⟨fuel - 1, by omega⟩
  rw [eq]
  exact repeatWhile_overrun (evalExpr_overrun limited spent) condition body turns

section Budgets

variable {scripts operations : Nat}

def spends : (fueled answer natives spares ⟨scripts, operations + 1⟩).Next where
  ready := Budget.Covers engine ⟨scripts, operations⟩
  kept since covers := covers.since since
  counts m n covers since more within := by
    have covered : Budget.Covers engine ⟨scripts, operations + 1⟩ m := covers
    have enough := within limited
    refine ⟨(covered.since since).scripts, ?_⟩
    have left := covered.operations
    dsimp only at left ⊢
    omega

def starts (shelf : Shelf) : (fueled answer natives spares ⟨scripts + 1, operations⟩).Inner shelf where
  ready := Budget.Covers engine ⟨scripts, engine.limits.operations + 1⟩
  kept since covers := covers.since since
  embarks m source script next covers _ written free := by
    have covered : Budget.Covers engine ⟨scripts + 1, operations⟩ m := covers
    have fewer : (m.embark shelf script next).world.unstarted.card < m.world.unstarted.card :=
      World.unstarted_lt written free rfl rfl
    exact ⟨Nat.lt_of_lt_of_le fewer (Nat.le_of_lt_succ covered.scripts),
      Nat.lt_succ_of_le (Nat.sub_le _ _)⟩

variable (answers : engine.Answers answer)
  (lower : (fueled answer natives spares ⟨scripts, operations⟩).Finishes (members engine answer))
include limited lower

theorem eval_moves {looping : Bool} {e : Expr}
    (permits : (fueled answer natives spares ⟨scripts, operations + 1⟩).Permits looping (.expr e)) :
    (fueled answer natives spares ⟨scripts, operations + 1⟩).Moves fun fuel =>
      (members engine answer fuel).eval e := by
  intro m hm
  apply Yields.sooner
  exact evalExpr_moves (spends limited) lower.evaluates permits m hm

theorem exec_moves {looping : Bool} {stmt : Stmt}
    (permits : (fueled answer natives spares ⟨scripts, operations + 1⟩).Permits looping (.stmt stmt)) :
    (fueled answer natives spares ⟨scripts, operations + 1⟩).Moves fun fuel =>
      (members engine answer fuel).exec stmt := by
  intro m hm
  apply Yields.sooner
  exact execStmt_moves (spends limited) lower.evaluates permits m hm

include answers

/-- Calls are taken in the order of what they pass on; the bodies that they run count for themselves. -/
theorem calls_bounded (bound : Nat) :
    (fueled answer natives spares ⟨scripts, operations + 1⟩).Calls (members engine answer)
      (some bound) := by
  induction bound with
  | zero =>
    intro name args exposedOnly pos this m _ _ _ light
    exact absurd (light 0 rfl) (Nat.not_lt_zero _)
  | succ bound ih =>
    intro name args exposedOnly pos this m hm hargs hthis light
    apply Yields.sooner
    refine callNamed_held (fun _ _ permits => (exec_moves limited lower permits).goes) ih
      (reads_fueled answers) (fun _ => ⟨not_false, fun _ unnamed => unnamed⟩) name hargs exposedOnly pos
      hthis ?_ hm
    intro b eq
    cases eq
    exact Nat.le_of_lt_succ (light _ rfl)

theorem calls :
    (fueled answer natives spares ⟨scripts, operations + 1⟩).Calls (members engine answer) none := by
  intro name args exposedOnly pos this m hm hargs hthis _
  refine calls_bounded limited answers lower
    (Value.weights (this.toList ++ args) + 1) name args exposedOnly pos this m hm hargs hthis ?_
  intro b eq
  cases eq
  exact Nat.lt_succ_self _

/-- A machine that still has an operation has fewer after each turn. -/
theorem repeatWhile_within {looping : Bool} {condition : Option Expr} {body : Expr}
    (permitsCondition : ∀ e, condition = some e →
      (fueled answer natives spares ⟨scripts, operations + 1⟩).Permits looping (.expr e))
    (permitsBody : (fueled answer natives spares ⟨scripts, operations + 1⟩).Permits true (.expr body))
    {count : Nat → Nat} (grows : Grows count) {m : Machine}
    (hm : (fueled answer natives spares ⟨scripts, operations + 1⟩).Ready m)
    (within : m.operations < engine.limits.operations) :
    (fueled answer natives spares ⟨scripts, operations + 1⟩).At False m (fun _ _ => True) fun fuel =>
      Eval.repeatWhile (members engine answer fuel) condition body (count fuel) m := by
  have again : Grows fun fuel => count fuel - 1 :=
    fun k => (grows (k + 1)).mono fun fuel enough => Nat.le_sub_of_add_le enough
  have turned : ∀ n, m.Onward n → (fueled answer natives spares ⟨scripts, operations + 1⟩).Ready n →
      (fueled answer natives spares ⟨scripts, operations + 1⟩).Yields n (fun o => o)
        (fun _ o => Budget.Covers engine ⟨scripts, operations⟩ o)
        (fun h o => Budget.Covers engine ⟨scripts, operations⟩ o ∧
          (fueled answer natives spares ⟨scripts, operations + 1⟩).allows h)
        fun fuel => (members engine answer fuel).eval body n := by
    intro n onward hn
    have covers : ∀ o, n.Onward o → n.operations < o.operations →
        Budget.Covers engine ⟨scripts, operations⟩ o := fun o later more =>
      (spends limited).counts m o hm.ready (onward.trans later).toSince
        (Nat.lt_of_le_of_lt onward.operations more) fun _ => within
    refine (eval_moves limited lower permitsBody n hn).onward.mono ?_ ?_
    · exact fun _ o ⟨later, more, _⟩ => covers o later more
    · exact fun _ o ⟨later, more, allowed⟩ => ⟨covers o later more, allowed⟩
  have goes : ∀ e, condition = some e → (fueled answer natives spares ⟨scripts, operations + 1⟩).Goes
      False (Value.Lent engine.Unnamed) fun fuel => (members engine answer fuel).eval e :=
    fun e eq => (eval_moves limited lower (permitsCondition e eq)).goes
  refine (turn_at (reads_fueled answers) hm goes turned fun n hn covers => lower.loops looping condition
    body permitsCondition permitsBody _ again n ⟨hn.tidy, covers⟩).congr_fuel ?_
  filter_upwards [grows 1] with fuel enough
  obtain ⟨less, eq⟩ : ∃ less, count fuel = less + 1 := ⟨count fuel - 1, by omega⟩
  simp only [eq, Nat.add_sub_cancel]
  rfl

theorem loops_step :
    (fueled answer natives spares ⟨scripts, operations + 1⟩).Loops (members engine answer) := by
  intro looping condition body permitsCondition permitsBody count grows m hm
  by_cases within : m.operations < engine.limits.operations
  · exact repeatWhile_within limited answers lower permitsCondition permitsBody grows hm within
  · exact repeatWhile_spent limited grows (Nat.le_of_not_lt within)

end Budgets

include limited

theorem finishes_step {scripts operations : Nat} (answers : engine.Answers answer)
    (inner : (fueled answer natives spares ⟨scripts, engine.limits.operations + 1⟩).Finishes
      (members engine answer))
    (lower : (fueled answer natives spares ⟨scripts + 1, operations⟩).Finishes
      (members engine answer)) :
    (fueled answer natives spares ⟨scripts + 1, operations + 1⟩).Finishes (members engine answer) := by
  have loops : (fueled answer natives spares ⟨scripts + 1, operations + 1⟩).Loops
      (members engine answer) := loops_step limited answers lower
  refine ⟨⟨reads_fueled answers, ?_, ?_, calls limited answers lower, ?_, ?_⟩, loops⟩
  · exact fun _ _ permits => (eval_moves limited lower permits).goes
  · exact fun _ _ permits => (exec_moves limited lower permits).goes
  · intro looping condition body permitsCondition permitsBody
    refine loops looping condition body permitsCondition permitsBody _ fun k => ?_
    filter_upwards [eventually_ge_atTop k] with fuel enough
    exact enough.trans (Eval.answering_fuel fuel).ge
  · intro path pos m hm
    exact resolve_at makes_fueled (fun number => starts ⟨number, path⟩)
      (fun _ => inner.evaluates.toReads) (fun _ => inner.evaluates.exec) pos hm

theorem finishes (answers : engine.Answers answer) (b : Budget) :
    (fueled answer natives spares b).Finishes (members engine answer) := by
  obtain ⟨scripts, operations⟩ := b
  induction scripts generalizing operations with
  | zero => exact finishes_never answers fun m covers => Nat.not_lt_zero _ covers.scripts
  | succ scripts inner =>
    induction operations with
    | zero => exact finishes_never answers fun m covers => Nat.not_lt_zero _ covers.operations
    | succ operations lower =>
      exact finishes_step limited answers (inner (engine.limits.operations + 1)) lower

end Step

end Survey

open Classical in
noncomputable def Native.returning (mode : Arithmetic) (fuel : Nat) (f : Native) (s : Store)
    (args : List Value) : Applied :=
  if f.Returns mode s args then f.apply mode fuel s args else .refuse args

namespace Engine

variable {engine : Engine}

theorem answers_returning : engine.Answers (Native.returning engine.arithmetic) where
  steady f s args hargs untagged := by
    by_cases returns : f.Returns engine.arithmetic s args
    · obtain ⟨least, a, fueled, same⟩ := id returns
      have plain : a.Plain engine.lending := by
        rw [← same least (Nat.le_refl _)]
        exact f.apply_plain engine.arithmetic least s hargs untagged
      refine ⟨a, plain, fueled, ?_⟩
      filter_upwards [eventually_ge_atTop least] with fuel enough
      exact (if_pos returns).trans (same fuel enough)
    · have refused : (Applied.refuse args).result ≠ .error .outOfFuel := by
        simp [Applied.refuse, Applied.failure, Halt.cause]
      exact ⟨.refuse args, Applied.plain_refuse hargs, refused, .of_forall fun _ => if_neg returns⟩

/-- Every native call that a run makes returns: it makes no difference to the run if the calls that
would not return are refused. -/
def NativesReturn (engine : Engine) (script : Script) (s : Stage) : Prop :=
  ∀ fuel, runBy script (Eval.answering engine (Native.returning engine.arithmetic) fuel) s =
    runBy script (Eval.evaluator engine fuel) s

/-- With enough fuel a run comes to an end, always to the same one, and other runs can follow. -/
structure Completes (engine : Engine) (r : Nat → EStateM.Result Halt Stage Value) : Prop where
  ends : Terminates r
  tidy : ∀ᶠ fuel in atTop, (ending (r fuel)).Tidy engine.lending

theorem completes_answering (limited : 0 < engine.limits.operations)
    (natives : ∀ m ∈ engine.nativeModules, m.Fair engine.lending) (spares : engine.SparesClosures)
    {script : Script} (obeys : script.Obeys (Rule.lending engine.Unnamed)) {s : Stage}
    (tidy : s.Tidy engine.lending) {answer : Nat → Native → Store → List Value → Applied}
    (answers : engine.Answers answer) :
    engine.Completes fun fuel => runBy script (Eval.answering engine answer fuel) s := by
  let m := s.start script.library 0
  let b : Survey.Budget := ⟨m.world.unstarted.card + 1, engine.limits.operations + 1⟩
  have start : m.Tidy engine.lending :=
    ⟨tidy.world, tidy.scope, tidy.this, obeys.fair, obeys.fair, fun _ none => by cases none⟩
  have covers : b.Covers engine m := ⟨Nat.lt_succ_self _, Nat.lt_succ_of_le (Nat.sub_le _ _)⟩
  have finishes : (Survey.fueled answer natives spares b).Finishes (Survey.members engine answer) :=
    Survey.finishes limited answers b
  obtain ⟨acts, out, leads, ends, agree⟩ :=
    Survey.runTop_goes finishes.evaluates.exec obeys.statements m ⟨start, covers⟩
  obtain ⟨least, same⟩ := eventually_atTop.mp
    (show ∀ᶠ fuel in atTop, Eval.runTop (Eval.answering engine answer fuel) script.statements m = out
      from agree)
  have ran : ∀ fuel, least ≤ fuel →
      runBy script (Eval.answering engine answer fuel) s = staged out := by
    intro fuel enough
    rw [runBy, onStage_eq]
    exact congrArg staged (same fuel enough)
  refine ⟨⟨staged out, least, ?_, ran⟩, ?_⟩
  · intro t never
    cases out with
    | ok v n => cases never
    | error h n =>
      cases h with
      | outOfFuel => exact ends.2
      | _ => cases never
  · filter_upwards [eventually_ge_atTop least] with fuel enough
    have last : (ending out).Tidy engine.lending := leads.tidy start
    rw [ran fuel enough]
    cases out <;> exact last.stage

/-- Where operations are limited, every compiled script comes to an end, whatever loops and calls
itself in it and in the scripts that it imports, if natives return: with any natives that always
answer, and with those that there are if the calls that the run makes of them return. The engine
hands out no aliases and no native of it goes by the name of a closure; the script may have been
compiled by another engine. -/
theorem limited_runs_end (engine compiler : Engine) (limited : 0 < engine.limits.operations)
    (natives : ∀ m ∈ engine.nativeModules, m.Fair engine.lending) (spares : engine.SparesClosures)
    {asExpression : Bool} {pieces : List Text} {first next : Nat} {script : Script}
    (compiled : compiler.compile asExpression pieces first = (.ok script, next)) {s : Stage}
    (tidy : s.Tidy engine.lending) :
    (∀ answer, engine.Answers answer →
      engine.Completes fun fuel => runBy script (Eval.answering engine answer fuel) s) ∧
    (engine.NativesReturn script s →
      engine.Completes fun fuel => runBy script (Eval.evaluator engine fuel) s) := by
  have obeys : script.Obeys (Rule.lending engine.Unnamed) := compiler.compiled_lending compiled spares
  have completes : ∀ answer, engine.Answers answer →
      engine.Completes fun fuel => runBy script (Eval.answering engine answer fuel) s :=
    fun _ answers => completes_answering limited natives spares obeys tidy answers
  refine ⟨completes, fun returns => ?_⟩
  have same : (fun fuel => runBy script (Eval.evaluator engine fuel) s) = fun fuel =>
      runBy script (Eval.answering engine (Native.returning engine.arithmetic) fuel) s :=
    funext fun fuel => (returns fuel).symm
  rw [same]
  exact completes _ answers_returning

end Engine

def fiveOperations : Engine := { Engine.standard with limits := { operations := 5 } }

theorem spares_fiveOperations : fiveOperations.SparesClosures := by
  refine Engine.native?_closureName fun m hm f hf => ?_
  rcases List.mem_cons.mp hm with rfl | package
  · cases hf
  · rwa [List.mem_singleton.mp package] at hf

def endlessLoop : Stmt := .loop ⟨1, 1⟩ (some (.bool ⟨1, 7⟩ true)) (.block ⟨1, 12⟩ [])

def endlessScript : Script where
  statements := [endlessLoop]

theorem endless_compiles :
    fiveOperations.compile false [Text.lit "while true \x7b\x7d"] 0 = (.ok endlessScript, 0) := by
  with_unfolding_all rfl

theorem Eval.repeatWhile_congr {ev ev' : Evaluator} (fuel : ev.fuel = ev'.fuel)
    {condition : Option Expr} {body : Expr} (alike : ∀ e, condition = some e → ev.eval e = ev'.eval e)
    (bodies : ev.eval body = ev'.eval body) (count : Nat) :
    repeatWhile ev condition body count = repeatWhile ev' condition body count := by
  induction count with
  | zero => rfl
  | succ count ih =>
    cases condition with
    | none =>
      simp only [repeatWhile, bodies, ih]
    | some e =>
      simp only [repeatWhile, alike e rfl, bodies, ih, requireBool, plainMismatch, typeOf, fuel]

theorem endless_returns : fiveOperations.NativesReturn endlessScript { world := {} } := by
  intro fuel
  cases fuel with
  | zero => rfl
  | succ fuel =>
    let answering := Eval.answering fiveOperations (Native.returning fiveOperations.arithmetic) fuel
    have fueled : answering.fuel = (Eval.evaluator fiveOperations fuel).fuel := Eval.answering_fuel fuel
    have repeated : Eval.repeatWhile answering (some (.bool ⟨1, 7⟩ true)) (.block ⟨1, 12⟩ [])
        answering.fuel = Eval.repeatWhile (Eval.evaluator fiveOperations fuel) (some (.bool ⟨1, 7⟩ true))
          (.block ⟨1, 12⟩ []) fuel := by
      rw [show answering.fuel = fuel from fueled]
      refine Eval.repeatWhile_congr fueled (fun e eq => ?_) ?_ fuel
      · cases eq
        cases fuel <;> rfl
      · cases fuel <;> rfl
    have looped : Eval.execStmt fiveOperations answering endlessLoop =
        Eval.execStmt fiveOperations (Eval.evaluator fiveOperations fuel) endlessLoop :=
      congrArg (fun k => Eval.tick fiveOperations ⟨1, 1⟩ >>= fun _ => k >>= fun _ => pure Value.unit)
        repeated
    exact congrArg (fun k : Run Value => Engine.onStage endlessScript.library 0
      (Eval.runTop { answering with exec := fun _ => k } endlessScript.statements) { world := {} }) looped

/-- The loop ends, although nothing in it says so. -/
theorem limited_runs_end_endless :
    0 < fiveOperations.limits.operations ∧
      (∀ m ∈ fiveOperations.nativeModules, m.Fair fiveOperations.lending) ∧
      fiveOperations.SparesClosures ∧ fiveOperations.NativesReturn endlessScript { world := {} } ∧
      fiveOperations.Completes fun fuel =>
        Engine.runBy endlessScript (Eval.evaluator fiveOperations fuel) { world := {} } := by
  have natives := Engine.natives_standard fiveOperations.lending
  have tidy : ({ world := {} } : Stage).Tidy fiveOperations.lending := by
    refine ⟨⟨fun c => .leaf rfl, by simp, by simp⟩, by simp, by simp⟩
  have ends := Engine.limited_runs_end fiveOperations fiveOperations (by decide) natives
    spares_fiveOperations endless_compiles tidy
  exact ⟨by decide, natives, spares_fiveOperations, endless_returns, ends.2 endless_returns⟩

end Scripting
