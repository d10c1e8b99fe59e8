import Scripting.Proofs.Course.Loading
import Scripting.Proofs.Course.Watch
import Scripting.Session.Library

/-
Modules made from scripts, over the whole history of a host that adds scripts, forgets modules and
asks for modules.
-/
namespace Scripting

namespace Engine

def fetch (engine : Engine) (shelf : Shelf) (pos : Position) (ev : Evaluator) : Staged Eval.Supplied :=
  onStage {} 0 (Eval.supply engine ev (.scripts shelf.supplier) shelf.path pos)

theorem resolveModule_eq_fetch {engine : Engine} {number : Nat}
    (h : engine.resolver = some (.single (.scripts number))) (path : Text) (pos : Position) :
    engine.resolveModule path pos = engine.fetch ⟨number, path⟩ pos engine.evaluator := by
  unfold resolveModule Eval.resolve
  rw [h]
  rfl

end Engine

/-- What a host does with the scripts of modules. -/
inductive Errand where
  | addSource (shelf : Shelf) (source : Text)
  | forgetLoaded (number : Nat)
  | resolve (shelf : Shelf) (pos : Position)

namespace Errand

def run : Errand → Hosted (Option Module)
  | addSource shelf source => do
    Session.addSource shelf.path source shelf.supplier
    return none
  | forgetLoaded number => do
    Session.forgetLoaded number
    return none
  | resolve shelf pos => do
    let engine := (← get).engine
    return some (← Session.lendWorld (engine.fetch shelf pos engine.evaluator)).supplied

def added? (shelf : Shelf) : Errand → Option Text
  | addSource other source => if other = shelf then some source else none
  | _ => none

def Spares (shelf : Shelf) : Errand → Prop
  | addSource other _ => other ≠ shelf
  | forgetLoaded number => number ≠ shelf.supplier
  | resolve _ _ => True

end Errand

namespace Session

def after (s : Session) : List Errand → Session
  | [] => s
  | e :: rest => after (ending (e.run s)) rest

def stage (s : Session) : Stage := { world := s.world }

def Does (K : Kind) (s : Session) (acts : List Act) : Errand → Prop
  | .resolve shelf pos => ∃ out, s.engine.Traces K (s.engine.fetch shelf pos) s.stage
      (s.stage.start {} 0) acts out
  | _ => acts = []

def Logs (K : Kind) (s : Session) : List Errand → List Act → Prop
  | [], acts => acts = []
  | e :: rest, acts => ∃ first later, acts = first ++ later ∧ s.Does K first e ∧
      Logs K (ending (e.run s)) rest later

/-- What it takes to get a module: its script is started once if it has to be, and not at all if the
module is there. -/
structure Gets (K : Kind) (s : Session) (shelf : Shelf) (pos : Position) (acts : List Act)
    (out : EStateM.Result Halt Machine Eval.Supplied) : Prop where
  traces : s.engine.Traces K (s.engine.fetch shelf pos) s.stage (s.stage.start {} 0) acts out
  keeps : ∀ given n, out = .ok given n → n.world.loaded.find? shelf = some given.supplied ∧
    acts.countP (Act.begins shelf) = if s.world.loaded.contains shelf then 0 else 1

/-- Nothing is being loaded, and every module was made from the script that is there now. -/
structure Kept (K : Kind) (s : Session) : Prop where
  natives : ∀ m ∈ s.engine.nativeModules, m.Fair K
  tidy : s.world.Tidy K
  idle : s.world.loading = []
  ordered : Dict.Ordered s.world.loaded
  made : ∀ shelf found, s.world.loaded.find? shelf = some found →
    ∃ source, s.world.sources.find? shelf = some source ∧ s.engine.Made source found

variable {K : Kind} {s : Session}

theorem find?_without_eq_some {α : Type} {number : Nat} {d : Dict Shelf α} {shelf : Shelf} {a : α} :
    Dict.find? shelf (without number d) = some a ↔
      Dict.find? shelf d = some a ∧ shelf.supplier ≠ number := by
  induction d with
  | nil => simp [without, Dict.find?]
  | cons entry rest ih =>
    obtain ⟨key, v⟩ := entry
    by_cases same : key = shelf
    · subst same
      by_cases own : key.supplier = number <;> simp_all [without, Dict.find?]
    · by_cases own : key.supplier = number <;> simp_all [without, Dict.find?]

theorem run_resolve (s : Session) (shelf : Shelf) (pos : Position) :
    (Errand.resolve shelf pos).run s =
      match s.engine.fetch shelf pos s.engine.evaluator s.stage with
      | .ok given t => .ok (some given.supplied) { s with world := t.world }
      | .error h t => .error h { s with world := t.world } := by
  change (lendWorld (s.engine.fetch shelf pos s.engine.evaluator) >>= fun given =>
    pure (some given.supplied)) s = _
  unfold lendWorld lend
  dsimp only [bind, EStateM.bind, stage]
  cases s.engine.fetch shelf pos s.engine.evaluator _ <;> rfl

namespace Kept

theorem stage (h : s.Kept K) : s.stage.Tidy K :=
  ⟨h.tidy, by simp [Session.stage], by simp [Session.stage]⟩

theorem loading (h : s.Kept K) :
    (s.engine.course K).Loading s.world.sources [] (s.stage.start {} 0).alone := by
  rw [← h.idle]
  exact Course.loading_alone (m := s.stage.start {} 0) h.ordered h.made

theorem lasts (h : s.Kept K) {acts : List Act} {n : Machine}
    (leads : (s.engine.course K).Leads (s.stage.start {} 0) acts n) :
    (s.engine.course K).Loading s.world.sources [] n.alone := by
  rw [← leads.ends]
  exact h.loading.run leads.lawful _ Standing.mem_passed_after

theorem withWorld (h : s.Kept K) {acts : List Act} {n : Machine}
    (leads : (s.engine.course K).Leads (s.stage.start {} 0) acts n) :
    ({ s with world := n.world } : Session).Kept K := by
  have start : (s.stage.start {} 0).Tidy K := h.stage.start {} 0
  have last := h.lasts leads
  have sources : n.world.sources = s.world.sources := last.sources
  refine ⟨h.natives, (leads.tidy start).world, last.running, last.ordered, ?_⟩
  intro shelf found there
  change ∃ source, n.world.sources.find? shelf = some source ∧ _
  rw [sources]
  exact last.made shelf found there

theorem gets (h : s.Kept K) (shelf : Shelf) (pos : Position) : ∃ acts out, s.Gets K shelf pos acts out := by
  let m := s.stage.start {} 0
  have ready : (Survey.watches h.natives).Ready m := ⟨h.stage.start {} 0, trivial⟩
  cases loaded : m.world.loaded.find? shelf with
  | some found =>
    refine ⟨[], .ok ⟨found, false⟩ m, ?_, ?_⟩
    · apply Survey.traces_of_agree
        (fun ev => Eval.supply s.engine ev (.scripts shelf.supplier) shelf.path pos) (Course.leads_nil m)
      · exact Filter.Eventually.of_forall fun w => Survey.supply_loaded loaded _ pos
      · exact h.natives
    · rintro given n ⟨⟩
      have there : s.world.loaded.find? shelf = some found := loaded
      exact ⟨loaded, by simp [Dict.contains, there]⟩
  | none =>
    have fails : ∀ e n,
        Eval.supply s.engine s.engine.evaluator (.scripts shelf.supplier) shelf.path pos m = .error e n →
        ∃ acts out, s.Gets K shelf pos acts out := by
      intro e n failed
      obtain ⟨acts, out, traces⟩ :=
        Engine.traces_supply h.natives (.scripts shelf.supplier) shelf.path pos h.stage
      refine ⟨acts, out, traces, ?_⟩
      rintro given o rfl
      have result : s.engine.fetch shelf pos s.engine.evaluator s.stage = .ok given o.stage :=
        traces.result
      rw [Engine.fetch, Engine.onStage_eq, failed] at result
      cases result
    cases written : m.world.sources.find? shelf with
    | none => exact fails _ _ (Survey.supply_missing loaded written _ pos)
    | some source =>
      have free : shelf ∉ m.world.loading := by
        have idle : m.world.loading = [] := h.idle
        simp [idle]
      have supply : Eval.supply s.engine s.engine.evaluator (.scripts shelf.supplier) shelf.path pos m = _ :=
        Survey.supply_script loaded written s.engine.evaluator pos free
      cases compiled : s.engine.compile false [source] m.world.nextClosure with
      | mk result next =>
        rw [compiled] at supply
        cases result with
        | error stop => cases stop <;> exact fails _ _ supply
        | ok script =>
          have hev := Survey.evaluates_watching h.natives ampleFuel
          obtain ⟨inner, found, n, out, inside, leads, ends, agree⟩ := Survey.load_acts
            (Survey.makes_watching h.natives ampleFuel) (Survey.inner_watches h.natives shelf)
            hev.toReads hev.exec ready loaded written free compiled
          refine ⟨.begin shelf script next :: (inner ++ [.finish found]), out, ?_, ?_⟩
          · apply Survey.traces_of_agree
              (fun ev => Eval.supply s.engine ev (.scripts shelf.supplier) shelf.path pos) leads
            refine agree.mono fun w same => ?_
            rw [Survey.supply_script loaded written _ pos free, compiled]
            exact same
          · rintro given o rfl
            refine ⟨ends.2, ?_⟩
            have once : inner.countP (Act.begins shelf) = 0 := by
              have waiting : shelf ∈ [Frame.importer m shelf].filterMap Frame.shelf? := by
                simp [Frame.shelf?]
              exact Course.Loading.waits waiting (h.loading.next leads.lawful.1) inside.lawful
            have absent : s.world.loaded.find? shelf = none := loaded
            simp [Act.begins, once, Dict.contains, absent]

theorem run (h : s.Kept K) (e : Errand) : (ending (e.run s)).Kept K := by
  cases e with
  | addSource shelf source =>
    refine ⟨h.natives, ⟨h.tidy.cells, h.tidy.table, ?_⟩, h.idle, h.ordered.erase shelf, ?_⟩
    · exact fun e he => h.tidy.loaded e (Dict.mem_of_mem_erase he)
    · intro other found there
      change (s.world.loaded.erase shelf).find? other = some found at there
      have ne : other ≠ shelf := by
        rintro rfl
        rw [h.ordered.find?_erase] at there
        cases there
      rw [Dict.find?_erase_of_ne ne] at there
      obtain ⟨text, written, made⟩ := h.made other found there
      exact ⟨text, (Dict.find?_insert_of_ne ne _ _).trans written, made⟩
  | forgetLoaded number =>
    refine ⟨h.natives, ⟨h.tidy.cells, h.tidy.table, ?_⟩, h.idle, List.Pairwise.filter _ h.ordered, ?_⟩
    · exact fun e he => h.tidy.loaded e (List.mem_filter.mp he).1
    · intro shelf found there
      obtain ⟨still, -⟩ := find?_without_eq_some.mp there
      exact h.made shelf found still
  | resolve shelf pos =>
    obtain ⟨acts, out, got⟩ := h.gets shelf pos
    have kept := h.withWorld got.traces.leads
    rw [run_resolve, got.traces.result]
    cases out <;> exact kept

theorem after (h : s.Kept K) (errands : List Errand) : (s.after errands).Kept K := by
  induction errands generalizing s with
  | nil => exact h
  | cons e rest ih => exact ih (h.run e)

theorem run_sources (h : s.Kept K) (e : Errand) (shelf : Shelf) :
    (ending (e.run s)).world.sources.find? shelf =
      (e.added? shelf).or (s.world.sources.find? shelf) := by
  cases e with
  | addSource other source =>
    change (s.world.sources.insert other source).find? shelf =
      (if other = shelf then some source else none).or (s.world.sources.find? shelf)
    by_cases same : other = shelf
    · rw [same, Dict.find?_insert_self, if_pos rfl, Option.some_or]
    · rw [Dict.find?_insert_of_ne (Ne.symm same), if_neg same, Option.none_or]
  | forgetLoaded number => rfl
  | resolve other pos =>
    obtain ⟨acts, out, got⟩ := h.gets other pos
    have last : (ending out).world.sources = s.world.sources := (h.lasts got.traces.leads).sources
    rw [run_resolve, got.traces.result]
    cases out <;> exact congrArg (Dict.find? shelf) last

/-- The script behind a path is the one that was put there last. -/
theorem after_sources (h : s.Kept K) (errands : List Errand) (shelf : Shelf) :
    (s.after errands).world.sources.find? shelf =
      (errands.reverse.findSome? (·.added? shelf)).or (s.world.sources.find? shelf) := by
  induction errands generalizing s with
  | nil => rfl
  | cons e rest ih =>
    have later := ih (h.run e)
    rw [h.run_sources e shelf, ← Option.or_assoc] at later
    rw [List.reverse_cons, List.findSome?_append, List.findSome?_singleton]
    exact later

theorem spares (h : s.Kept K) {shelf : Shelf} {found : Module}
    (loaded : s.world.loaded.find? shelf = some found) {e : Errand} (spares : e.Spares shelf) :
    (ending (e.run s)).world.loaded.find? shelf = some found ∧
      ∃ acts, s.Does K acts e ∧ acts.countP (Act.begins shelf) = 0 := by
  cases e with
  | addSource other source =>
    exact ⟨(Dict.find?_erase_of_ne (Ne.symm spares) _).trans loaded, [], rfl, rfl⟩
  | forgetLoaded number =>
    exact ⟨find?_without_eq_some.mpr ⟨loaded, Ne.symm spares⟩, [], rfl, rfl⟩
  | resolve other pos =>
    obtain ⟨acts, out, got⟩ := h.gets other pos
    obtain ⟨none, still⟩ := h.loading.keeps got.traces.leads.lawful loaded
    refine ⟨?_, acts, ⟨out, got.traces⟩, none⟩
    rw [got.traces.leads.ends] at still
    rw [run_resolve, got.traces.result]
    cases out <;> exact still

theorem spares_all (h : s.Kept K) {shelf : Shelf} {found : Module}
    (loaded : s.world.loaded.find? shelf = some found) {errands : List Errand}
    (spares : ∀ e ∈ errands, e.Spares shelf) :
    (s.after errands).world.loaded.find? shelf = some found ∧
      ∃ acts, s.Logs K errands acts ∧ acts.countP (Act.begins shelf) = 0 := by
  induction errands generalizing s with
  | nil => exact ⟨loaded, [], rfl, rfl⟩
  | cons e rest ih =>
    obtain ⟨still, first, does, none⟩ := h.spares loaded (spares e List.mem_cons_self)
    obtain ⟨last, later, logs, none'⟩ :=
      ih (h.run e) still fun e he => spares e (List.mem_cons_of_mem _ he)
    exact ⟨last, first ++ later, ⟨first, later, rfl, does, logs⟩, by simp [none, none']⟩

end Kept

end Session

structure Machine.Serves (engine : Engine) (K : Kind) (w : World) (m : Machine) : Prop where
  tidy : m.Tidy K
  sources : m.world.sources = w.sources
  table : m.world.table = w.table
  ordered : Dict.Ordered m.world.loaded
  made : ∀ shelf found, m.world.loaded.find? shelf = some found →
    ∃ source, m.world.sources.find? shelf = some source ∧ engine.Made source found

def Machine.keep (m : Machine) (shelf : Shelf) :
    EStateM.Result Halt Machine Module → EStateM.Result Halt Machine Eval.Supplied
  | .ok found n => .ok ⟨found, true⟩ ((m.rejoin n shelf).load shelf found)
  | .error h n => .error h (m.rejoin n shelf)

namespace Engine

variable {engine : Engine} {K : Kind} {w : World}

/-- The scripts of `w`, run as modules, come to an end as far as it is up to them: if all the
modules that they import do. -/
def OwnCodeEnds (engine : Engine) (K : Kind) (w : World) : Prop :=
  ∀ shelf source first script next (m : Machine), w.sources.find? shelf = some source →
    engine.compile false [source] first = (.ok script, next) → m.Serves engine K w →
    shelf ∈ m.world.loading →
    (∀ other pos (n : Machine), n.Serves engine K w → n.world.loading = m.world.loading →
      Terminates fun fuel => Eval.resolve engine (Eval.evaluator engine fuel) other pos n) →
    Terminates fun fuel => Eval.runModule (Eval.evaluator engine fuel) script m

section Ending

variable (natives : ∀ m ∈ engine.nativeModules, m.Fair K) {path : Text} {pos : Position} {m : Machine}
include natives

theorem supply_serves (fuel : Nat) (supplier : Supplier) (hm : m.Serves engine K w) :
    let n := ending (Eval.supply engine (Eval.evaluator engine fuel) supplier path pos m)
    n.Serves engine K w ∧ n.world.loading = m.world.loading := by
  have hev := Survey.evaluates_watching natives fuel
  obtain ⟨acts, out, leads, -, agree⟩ := Survey.supply_at (Survey.makes_watching natives fuel)
    (fun number => Survey.inner_watches natives ⟨number, path⟩) (fun _ => hev.toReads) (fun _ => hev.exec)
    supplier pos ⟨hm.tidy, trivial⟩
  have ran : Eval.supply engine (Eval.watching engine (fun _ => none) fuel) supplier path pos m = out :=
    Filter.eventually_principal.mp agree (fun _ => none) fun _ _ => rfl
  rw [Eval.watching_none] at ran
  rw [ran]
  have start : (engine.course K).Loading m.world.sources m.world.loading m.alone :=
    Course.loading_alone hm.ordered hm.made
  have last : (engine.course K).Loading m.world.sources m.world.loading (ending out).alone := by
    rw [← leads.ends]
    exact start.run leads.lawful _ Standing.mem_passed_after
  have sources : (ending out).world.sources = m.world.sources := last.sources
  refine ⟨⟨leads.tidy hm.tidy, sources.trans hm.sources, leads.onward.table.trans hm.table,
    last.ordered, ?_⟩, last.running⟩
  intro other found there
  rw [sources]
  exact last.made other found there

theorem resolve_scope (hm : m.Tidy K) (fuel : Nat) (path : Text) (pos : Position) :
    (ending (Eval.resolve engine (Eval.evaluator engine fuel) path pos m)).scope = m.scope := by
  have hev := Survey.evaluates_watching natives fuel
  obtain ⟨acts, out, leads, ends, agree⟩ := Survey.resolve_at (Survey.makes_watching natives fuel)
    (fun number => Survey.inner_watches natives ⟨number, path⟩) (fun _ => hev.toReads) (fun _ => hev.exec)
    pos ⟨hm, trivial⟩
  have ran : Eval.resolve engine (Eval.watching engine (fun _ => none) fuel) path pos m = out :=
    Filter.eventually_principal.mp agree (fun _ => none) fun _ _ => rfl
  rw [Eval.watching_none] at ran
  rw [ran]
  cases out <;> exact ends.1

variable (own : engine.OwnCodeEnds K w)
include own

omit natives in
theorem supply_terminates (supplier : Supplier) (hm : m.Serves engine K w)
    (inner : ∀ other pos (n : Machine), n.Serves engine K w →
      n.world.unstarted.card < m.world.unstarted.card →
      Terminates fun fuel => Eval.resolve engine (Eval.evaluator engine fuel) other pos n) :
    Terminates fun fuel => Eval.supply engine (Eval.evaluator engine fuel) supplier path pos m := by
  have refused : ∀ cause, Terminates fun _ =>
      (.error (.cause cause pos) m : EStateM.Result Halt Machine Eval.Supplied) :=
    fun cause => .const fun t never => by cases never
  have given : ∀ found, Terminates fun _ =>
      (.ok ⟨found, false⟩ m : EStateM.Result Halt Machine Eval.Supplied) :=
    fun found => .const fun t never => by cases never
  cases supplier with
  | table number =>
    simp only [Survey.supply_table]
    cases m.world.table.find? ⟨number, path⟩ with
    | none => exact refused _
    | some found => exact given found
  | scripts number =>
    cases loaded : m.world.loaded.find? ⟨number, path⟩ with
    | some found =>
      simp only [Survey.supply_loaded loaded]
      exact given found
    | none =>
      cases written : m.world.sources.find? ⟨number, path⟩ with
      | none =>
        simp only [Survey.supply_missing loaded written]
        exact refused _
      | some source =>
        by_cases busy : ⟨number, path⟩ ∈ m.world.loading
        · simp only [Survey.supply_circular loaded written _ pos busy]
          exact refused _
        · simp only [Survey.supply_script loaded written _ pos busy]
          have settles := engine.compile_settles false [source] m.world.nextClosure
          cases compiled : engine.compile false [source] m.world.nextClosure with
          | mk result next =>
            rw [compiled] at settles
            cases result with
            | error stop =>
              cases stop with
              | exhausted => exact absurd rfl settles
              | fault e => exact .const fun t never => by cases never
            | ok script =>
              have boarding : (m.boarding ⟨number, path⟩ next).Serves engine K w :=
                ⟨hm.tidy.idle _ _ _ _ _, hm.sources, hm.table, hm.ordered, hm.made⟩
              have ends := own ⟨number, path⟩ source _ script next (m.boarding ⟨number, path⟩ next)
                (hm.sources ▸ written) compiled boarding List.mem_cons_self
                fun other pos n hn loading => inner other pos n hn
                  (World.unstarted_lt written busy (hn.sources.trans hm.sources.symm) loading)
              refine ends.handle (f := fun _ out => m.keep ⟨number, path⟩ out) ?_
              intro out _ _ fueled
              cases out with
              | ok found n => exact .const fun t never => by cases never
              | error h n =>
                refine .const fun t never => ?_
                cases never
                exact fueled n rfl

theorem supplyFirst_terminates (suppliers : List Supplier) (hm : m.Serves engine K w)
    (inner : ∀ other pos (n : Machine), n.Serves engine K w →
      n.world.unstarted.card < m.world.unstarted.card →
      Terminates fun fuel => Eval.resolve engine (Eval.evaluator engine fuel) other pos n) :
    Terminates fun fuel => Eval.supplyFirst engine (Eval.evaluator engine fuel) path pos suppliers m := by
  induction suppliers generalizing m with
  | nil => exact .const fun t never => by cases never
  | cons supplier rest ih =>
    refine (supply_terminates own supplier hm inner).handle
      (f := fun fuel out => Eval.askNext engine (Eval.evaluator engine fuel) path pos rest out) ?_
    intro out fuel ran fueled
    have serves := @supply_serves engine K w natives path pos m fuel supplier hm
    rw [ran] at serves
    unfold Eval.askNext
    split
    · next detail errorPos n =>
      split
      · obtain ⟨hn, loading⟩ := serves
        have left : n.world.unstarted = m.world.unstarted := by
          have sources : n.world.sources = m.world.sources := hn.sources.trans hm.sources.symm
          have loading : n.world.loading = m.world.loading := loading
          simp only [World.unstarted, sources, loading]
        refine ih hn fun other pos o ho less => inner other pos o ho ?_
        rwa [← left]
      · exact .const fun t never => by cases never
    · exact .const fueled

theorem resolve_terminates (hm : m.Serves engine K w) :
    Terminates fun fuel => Eval.resolve engine (Eval.evaluator engine fuel) path pos m := by
  induction left : m.world.unstarted.card using Nat.strongRecOn generalizing m path pos with
  | ind k ih =>
    have inner : ∀ other pos (n : Machine), n.Serves engine K w →
        n.world.unstarted.card < m.world.unstarted.card →
        Terminates fun fuel => Eval.resolve engine (Eval.evaluator engine fuel) other pos n :=
      fun other pos n hn less => ih _ (left ▸ less) hn rfl
    unfold Eval.resolve
    cases engine.resolver with
    | none => exact .const fun t never => by cases never
    | some resolver =>
      cases resolver with
      | single supplier => exact supply_terminates own supplier hm inner
      | chain suppliers => exact supplyFirst_terminates natives own suppliers hm inner

end Ending

theorem fetch_loaded {shelf : Shelf} {found : Module} {s : Stage}
    (loaded : s.world.loaded.find? shelf = some found) (engine : Engine) (pos : Position)
    (ev : Evaluator) : engine.fetch shelf pos ev s = .ok ⟨found, false⟩ s := by
  have given : Eval.supply engine ev (.scripts shelf.supplier) shelf.path pos (s.start {} 0) =
      .ok ⟨found, false⟩ (s.start {} 0) :=
    Survey.supply_loaded loaded ev pos
  rw [fetch, onStage_eq, given]
  rfl

end Engine

namespace Session

variable {K : Kind} {s : Session}

theorem Kept.serves (h : s.Kept K) : (s.stage.start {} 0).Serves s.engine K s.world :=
  ⟨h.stage.start {} 0, rfl, rfl, h.ordered, h.made⟩

theorem Kept.fetch_terminates (h : s.Kept K) (own : s.engine.OwnCodeEnds K s.world) (shelf : Shelf)
    (pos : Position) :
    Terminates fun fuel => s.engine.fetch shelf pos (Eval.evaluator s.engine fuel) s.stage := by
  have ends : Terminates fun fuel => Eval.supply s.engine (Eval.evaluator s.engine fuel)
      (.scripts shelf.supplier) shelf.path pos (s.stage.start {} 0) :=
    Engine.supply_terminates own (.scripts shelf.supplier) h.serves
      fun other pos n hn _ => Engine.resolve_terminates h.natives own hn
  simp only [Engine.fetch, Engine.onStage_eq]
  refine ends.handle (f := fun _ out => staged out) ?_
  intro out _ _ fueled
  refine .const fun t never => ?_
  cases out with
  | ok given n => cases never
  | error e n =>
    cases never
    exact fueled n rfl

theorem Gets.of_run {shelf : Shelf} {pos : Position} {acts : List Act}
    {out : EStateM.Result Halt Machine Eval.Supplied} (got : s.Gets K shelf pos acts out) {found : Module}
    {t : Session} (ran : (Errand.resolve shelf pos).run s = .ok (some found) t) :
    t.world.loaded.find? shelf = some found ∧
      acts.countP (Act.begins shelf) = if s.world.loaded.contains shelf then 0 else 1 := by
  rw [run_resolve, got.traces.result] at ran
  cases out with
  | error e n => cases ran
  | ok given n =>
    cases ran
    exact got.keeps given n rfl

end Session

/-- Whatever a host does with the scripts of modules: between its errands nothing is being loaded; what
is loaded was made from the script that was put there last; while a module is got, the scripts that run are
different ones that are there, so they are never more than these; getting a module comes to an end if
the scripts do by themselves; and a module that is got twice, with its script left alone, is the same
one, made by a single run of its script. -/
theorem modules_load_once (K : Kind) (start : Session)
    (natives : ∀ m ∈ start.engine.nativeModules, m.Fair K) (tidy : start.world.Tidy K)
    (idle : start.world.loading = []) (unloaded : start.world.loaded = []) (errands : List Errand) :
    let s := start.after errands
    s.world.loading = [] ∧
    (∀ shelf found, s.world.loaded.find? shelf = some found →
      ∃ source, s.world.sources.find? shelf = some source ∧ s.engine.Made source found) ∧
    (∀ shelf, s.world.sources.find? shelf =
      (errands.reverse.findSome? (·.added? shelf)).or (start.world.sources.find? shelf)) ∧
    (∀ shelf pos, ∃ acts out, s.Gets K shelf pos acts out ∧
      ∀ t ∈ (s.stage.start {} 0).alone.passed acts, t.now.world.loading = t.shelves ∧ t.shelves.Nodup ∧
        t.shelves.length ≤ s.world.sources.length) ∧
    (s.engine.OwnCodeEnds K s.world → ∀ shelf pos,
      Terminates fun fuel => s.engine.fetch shelf pos (Eval.evaluator s.engine fuel) s.stage) ∧
    ∀ shelf pos pos' between found found' t t', (∀ e ∈ between, e.Spares shelf) →
      (Errand.resolve shelf pos).run s = .ok (some found) t →
      (Errand.resolve shelf pos').run (t.after between) = .ok (some found') t' →
      found' = found ∧
      (∀ ev, (t.after between).engine.fetch shelf pos' ev (t.after between).stage =
        .ok ⟨found, false⟩ (t.after between).stage) ∧
      ∃ acts, s.Logs K (.resolve shelf pos :: (between ++ [.resolve shelf pos'])) acts ∧
        acts.countP (Act.begins shelf) = if s.world.loaded.contains shelf then 0 else 1 := by
  have first : start.Kept K := by
    refine ⟨natives, tidy, idle, ?_, ?_⟩
    · rw [unloaded]
      exact .nil
    · rw [unloaded]
      intro shelf found none
      cases none
  have kept := first.after errands
  have sources := first.after_sources errands
  generalize start.after errands = s at kept sources
  refine ⟨kept.idle, kept.made, sources, ?_, kept.fetch_terminates, ?_⟩
  · intro shelf pos
    obtain ⟨acts, out, got⟩ := kept.gets shelf pos
    refine ⟨acts, out, got, fun t ht => ?_⟩
    have loading := kept.loading.run got.traces.leads.lawful t ht
    exact ⟨loading.running.trans (List.append_nil _), loading.nodup, loading.depth_le⟩
  · intro shelf pos pos' between found found' t t' spares ran again
    obtain ⟨acts, out, got⟩ := kept.gets shelf pos
    obtain ⟨loaded, once⟩ := got.of_run ran
    have later : ending ((Errand.resolve shelf pos).run s) = t := by rw [ran]; rfl
    have keptLater : t.Kept K := later ▸ kept.run (.resolve shelf pos)
    obtain ⟨still, -⟩ := keptLater.spares_all loaded spares
    have all : ∀ e ∈ between ++ [.resolve shelf pos'], e.Spares shelf :=
      List.forall_mem_append.mpr ⟨spares, by simp [Errand.Spares]⟩
    obtain ⟨-, more, logs, none⟩ := keptLater.spares_all loaded all
    refine ⟨?_, fun ev => Engine.fetch_loaded still _ pos' ev, acts ++ more, ?_, by simp [once, none]⟩
    · have given := Engine.fetch_loaded (s := (t.after between).stage) still (t.after between).engine pos'
        (t.after between).engine.evaluator
      rw [Session.run_resolve, given] at again
      cases again
      rfl
    · exact ⟨acts, more, rfl, ⟨out, got.traces⟩, later ▸ logs⟩

def circularEngine : Engine := { Engine.standard with resolver := some (.single .scripts) }

theorem natives_circular : ∀ m ∈ circularEngine.nativeModules, m.Fair Kind.proper :=
  Engine.natives_standard Kind.proper

def Script.importing (path : Text) : Script where
  statements := [.importModule ⟨1, 1⟩ (.string ⟨1, 8⟩ path) none]

def Machine.asking (m : Machine) : Machine := { Eval.freshMachine m.world {} with operations := 2 }

def Eval.unused : EStateM.Result Halt Machine Eval.Supplied → EStateM.Result Halt Machine Value
  | .ok _ n => .ok .unit n
  | .error h n => .error h n

def Machine.emptied (m : Machine) : EStateM.Result Halt Machine Value → EStateM.Result Halt Machine Module
  | .ok _ n => .ok ⟨[], [], Dict.ofList n.imports.reverse⟩ { m with world := n.world }
  | .error (.returning _) n => .ok ⟨[], [], Dict.ofList n.imports.reverse⟩ { m with world := n.world }
  | .error h n => .error h { m with world := n.world }

open Eval in
theorem importing_asks (path : Text) (m : Machine) (fuel : Nat) :
    (evaluator circularEngine (fuel + 1 + 1)).exec (.importModule ⟨1, 1⟩ (.string ⟨1, 8⟩ path) none)
      (freshMachine m.world {}) =
      unused (resolve circularEngine (evaluator circularEngine (fuel + 1)) path ⟨1, 8⟩ m.asking) := by
  let started : Machine := { freshMachine m.world {} with operations := 1 }
  have counted : tick circularEngine ⟨1, 1⟩ (freshMachine m.world {}) = .ok () started := rfl
  have named : (evaluator circularEngine (fuel + 1)).eval (.string ⟨1, 8⟩ path) started =
      .ok (.string path) m.asking := rfl
  change (tick circularEngine ⟨1, 1⟩ >>= fun _ =>
    execImport circularEngine (evaluator circularEngine (fuel + 1)) (.string ⟨1, 8⟩ path) none >>=
      fun _ => pure Value.unit) (freshMachine m.world {}) = _
  rw [bind_of_ok counted, execImport, bind_assoc, bind_of_ok named]
  cases ran : resolve circularEngine (evaluator circularEngine (fuel + 1)) path ⟨1, 8⟩ m.asking with
  | ok s n =>
    simp only [bind_assoc]
    exact bind_of_ok ran _
  | error h n =>
    simp only [bind_assoc]
    exact bind_of_error ran _

open Eval in
/-- Nothing but the module it asks for decides what such a script does. -/
theorem importing_runs (path : Text) {m : Machine} (tidy : m.asking.Tidy Kind.proper) (fuel : Nat) :
    runModule (evaluator circularEngine (fuel + 1 + 1)) (.importing path) m =
      m.emptied (unused
        (resolve circularEngine (evaluator circularEngine (fuel + 1)) path ⟨1, 8⟩ m.asking)) := by
  have scope := Engine.resolve_scope natives_circular tidy (fuel + 1) path ⟨1, 8⟩
  have asked := importing_asks path m fuel
  generalize resolve circularEngine (evaluator circularEngine (fuel + 1)) path ⟨1, 8⟩ m.asking = out
    at scope asked ⊢
  have top : ∀ v n, runTop (evaluator circularEngine (fuel + 1 + 1))
      [.importModule ⟨1, 1⟩ (.string ⟨1, 8⟩ path) none] (freshMachine m.world {}) = .ok v n →
      n.scope = [] → runModule (evaluator circularEngine (fuel + 1 + 1)) (.importing path) m =
        .ok ⟨[], [], Dict.ofList n.imports.reverse⟩ { m with world := n.world } := by
    intro v n ended empty
    unfold runModule isolated
    dsimp only [Script.importing]
    rw [show Script.library _ = {} from rfl, bind_of_ok ended]
    have got : (get : Run Machine) n = .ok n n := rfl
    rw [bind_of_ok got, empty]
    rfl
  have fails : ∀ h n, runTop (evaluator circularEngine (fuel + 1 + 1))
      [.importModule ⟨1, 1⟩ (.string ⟨1, 8⟩ path) none] (freshMachine m.world {}) = .error h n →
      runModule (evaluator circularEngine (fuel + 1 + 1)) (.importing path) m =
        .error h { m with world := n.world } := by
    intro h n ended
    unfold runModule isolated
    dsimp only [Script.importing]
    rw [show Script.library _ = {} from rfl, bind_of_error ended]
  cases out with
  | ok s n =>
    apply top .unit n _ scope
    rw [runTop_eq, execAll, bind_of_ok asked]
    rfl
  | error h n =>
    cases h with
    | returning v =>
      apply top v n _ scope
      rw [runTop_eq, execAll, bind_of_error asked]
      rfl
    | _ =>
      apply fails
      rw [runTop_eq, execAll, bind_of_error asked]
      rfl

open Eval in
theorem importing_ends (path : Text) {m : Machine} (tidy : m.Tidy Kind.proper)
    (inner : Terminates fun fuel => resolve circularEngine (evaluator circularEngine fuel) path ⟨1, 8⟩
      m.asking) :
    Terminates fun fuel => runModule (evaluator circularEngine fuel) (.importing path) m := by
  have tidyAsking : m.asking.Tidy Kind.proper :=
    (Machine.tidy_fresh tidy.world (Package.fair_empty _)).idle 2 _ _ _ _
  have ended : Terminates fun fuel => m.emptied (unused
      (resolve circularEngine (evaluator circularEngine (fuel + 1)) path ⟨1, 8⟩ m.asking)) := by
    refine (inner.later 1).handle (f := fun _ out => m.emptied (unused out)) fun out _ _ fueled =>
      .const ?_
    intro t never
    cases out with
    | ok s n => cases never
    | error h n =>
      cases h with
      | outOfFuel => exact fueled n rfl
      | _ => cases never
  refine Terminates.sooner 2 ?_
  obtain ⟨out, least, fueled, same⟩ := ended
  exact ⟨out, least, fueled, fun fuel enough =>
    (importing_runs path tidyAsking fuel).trans (same fuel enough)⟩

theorem importing_serves {m : Machine} {w : World} (h : m.Serves circularEngine Kind.proper w) :
    m.asking.Serves circularEngine Kind.proper w :=
  ⟨(Machine.tidy_fresh h.tidy.world (Package.fair_empty _)).idle 2 _ _ _ _, h.sources, h.table,
    h.ordered, h.made⟩

def onlyShelf (path : String) : Shelf := ⟨0, Text.lit path⟩

def circularErrands : List Errand :=
  [.addSource (onlyShelf "a") (Text.lit "import \"b\""),
    .addSource (onlyShelf "b") (Text.lit "import \"a\"")]

def circularSession : Session := Session.after { engine := circularEngine } circularErrands

theorem circular_ends : circularEngine.OwnCodeEnds Kind.proper circularSession.world := by
  intro shelf source first script next m written compiled serves _ inner
  have imports : ∃ other, script = .importing other := by
    have sources : circularSession.world.sources = [(onlyShelf "a", Text.lit "import \"b\""),
        (onlyShelf "b", Text.lit "import \"a\"")] := by rfl
    rw [sources] at written
    unfold Dict.find? at written
    split at written
    · cases written
      have read : circularEngine.compile false [Text.lit "import \"b\""] first =
          (.ok (.importing (Text.lit "b")), first) := by with_unfolding_all rfl
      rw [read] at compiled
      cases compiled
      exact ⟨_, rfl⟩
    · unfold Dict.find? at written
      split at written
      · cases written
        have read : circularEngine.compile false [Text.lit "import \"a\""] first =
            (.ok (.importing (Text.lit "a")), first) := by with_unfolding_all rfl
        rw [read] at compiled
        cases compiled
        exact ⟨_, rfl⟩
      · cases written
  obtain ⟨other, rfl⟩ := imports
  exact importing_ends other serves.tidy (inner other ⟨1, 8⟩ m.asking (importing_serves serves) rfl)

def diamondErrands : List Errand :=
  [.addSource (onlyShelf "a") (Text.lit "let n = 1; export n"),
    .addSource (onlyShelf "b") (Text.lit "import \"a\""),
    .addSource (onlyShelf "c") (Text.lit "import \"a\""),
    .addSource (onlyShelf "d") (Text.lit "import \"b\"; import \"c\"")]

def diamondShelves : List Shelf := [onlyShelf "a", onlyShelf "b", onlyShelf "c", onlyShelf "d"]

def diamondSession : Session := Session.after { engine := circularEngine } diamondErrands

def numberGot : EStateM.Result Halt Session (Option Module) → Option (Option Int × List Shelf)
  | .ok (some m) t =>
    let n := match m.value? (Text.lit "n") with
      | some (.int .i64 n) => some n.val
      | _ => none
    some (n, t.world.loaded.keys)
  | _ => none

theorem of_numberGot {r : EStateM.Result Halt Session (Option Module)} {x : Option Int × List Shelf}
    (h : numberGot r = some x) : ∃ found t, r = .ok (some found) t := by
  unfold numberGot at h
  split at h
  · next m t => exact ⟨m, t, rfl⟩
  · cases h

def Session.numbersGot (s : Session) : List Errand → List (Option (Option Int × List Shelf))
  | [] => []
  | e :: rest => numberGot (e.run s) :: numbersGot (ending (e.run s)) rest

def fetchA : Errand := .resolve (onlyShelf "a") .nowhere

def fetchD : Errand := .resolve (onlyShelf "d") .nowhere

def replaceA : Errand := .addSource (onlyShelf "a") (Text.lit "let n = 2; export n")

/-- Scripts that import each other are no obstacle. In a diamond the script at its foot runs once, also
if it is asked for before and after the others, and once more when it was replaced. -/
theorem modules_load_once_diamond :
    (∀ m ∈ circularEngine.nativeModules, m.Fair Kind.proper) ∧
      circularEngine.OwnCodeEnds Kind.proper circularSession.world ∧
      circularSession.world.loading = [] ∧
      (∀ shelf pos, Terminates fun fuel => circularSession.engine.fetch shelf pos
        (Eval.evaluator circularSession.engine fuel) circularSession.stage) ∧
      diamondSession.numbersGot [fetchA, fetchD, fetchA, replaceA, fetchA] =
        [some (some 1, [onlyShelf "a"]), some (none, diamondShelves), some (some 1, diamondShelves), none,
          some (some 2, diamondShelves)] ∧
      (∃ found t t', fetchA.run diamondSession = .ok (some found) t ∧
        fetchA.run (t.after [fetchD]) = .ok (some found) t') ∧
      (∃ acts, diamondSession.Logs Kind.proper [fetchA, fetchD, fetchA] acts ∧
        acts.countP (Act.begins (onlyShelf "a")) = 1) ∧
      (diamondSession.after [fetchA, replaceA]).world.sources.find? (onlyShelf "a") =
        some (Text.lit "let n = 2; export n") := by
  have tidy : World.Tidy Kind.proper {} := by
    refine ⟨?_, by simp, by simp⟩
    intro c
    exact .leaf rfl
  have history := modules_load_once Kind.proper { engine := circularEngine } natives_circular tidy rfl rfl
  obtain ⟨idle, -, -, -, ends, -⟩ := history circularErrands
  obtain ⟨-, -, -, -, -, twice⟩ := history diamondErrands
  obtain ⟨-, -, sources, -⟩ := history (diamondErrands ++ [fetchA, replaceA])
  have got : diamondSession.numbersGot [fetchA, fetchD, fetchA, replaceA, fetchA] =
      [some (some 1, [onlyShelf "a"]), some (none, diamondShelves), some (some 1, diamondShelves), none,
        some (some 2, diamondShelves)] := by
    decide +kernel
  obtain ⟨first, later⟩ := List.cons.inj got
  obtain ⟨second, -⟩ := List.cons.inj (List.cons.inj later).2
  obtain ⟨found, t, ran⟩ := of_numberGot first
  obtain ⟨found', t', ran'⟩ := of_numberGot second
  rw [show ending (fetchA.run diamondSession) = t from congrArg ending ran] at ran'
  obtain ⟨same, -, acts, logs, once⟩ := twice (onlyShelf "a") .nowhere .nowhere [fetchD] found found' t t'
    (fun e mem => by rw [List.mem_singleton.mp mem]; trivial) ran ran'
  exact ⟨natives_circular, circular_ends, idle, ends circular_ends, got,
    ⟨found, t, t', ran, same ▸ ran'⟩, ⟨acts, logs, once⟩, sources (onlyShelf "a")⟩

end Scripting
