import Scripting.Proofs.Contract.Import
import Scripting.Proofs.Course.Parts
import Scripting.Proofs.Parsing.Rules

/-
Imports, surveyed. The script of a module runs in a machine of its own while the one that imports it
waits; the module is kept if there is one in the end.
-/
namespace Scripting

def Machine.boarding (m : Machine) (shelf : Shelf) (next : Nat) : Machine :=
  { m with world := { m.world with loading := shelf :: m.world.loading, nextClosure := next } }

namespace Eval

/-- What comes of asking a supplier: if it does not know the path, the next ones are asked. -/
def askNext (engine : Engine) (ev : Evaluator) (path : Text) (pos : Position)
    (rest : List Supplier) :
    EStateM.Result Halt Machine Supplied → EStateM.Result Halt Machine Supplied
  | .error (.error ⟨.moduleNotFound detail, errorPos⟩) m =>
    if detail = path then supplyFirst engine ev path pos rest m
    else .error (.error ⟨.moduleNotFound detail, errorPos⟩) m
  | outcome => outcome

theorem supplyFirst_cons (engine : Engine) (ev : Evaluator) (path : Text) (pos : Position)
    (supplier : Supplier) (rest : List Supplier) (m : Machine) :
    supplyFirst engine ev path pos (supplier :: rest) m =
      askNext engine ev path pos rest (supply engine ev supplier path pos m) := rfl

end Eval

namespace Survey

variable {engine : Engine} {ι : Type} {L : Survey engine ι} {aside : Prop} {ev : ι → Evaluator}

open Eval

section Supplying

variable {number : Nat} {path source : Text} {m : Machine}

theorem supply_table (ev : Evaluator) (number : Nat) (path : Text) (pos : Position) (m : Machine) :
    supply engine ev (.table number) path pos m =
      match m.world.table.find? ⟨number, path⟩ with
      | some found => .ok ⟨found, false⟩ m
      | none => .error (.cause (.moduleNotFound path) pos) m := by
  unfold supply
  rw [bind_of_ok (show (get : Run Machine) m = .ok m m from rfl)]
  dsimp only
  cases m.world.table.find? ⟨number, path⟩ <;> rfl

theorem supply_loaded {found : Module} (loaded : m.world.loaded.find? ⟨number, path⟩ = some found)
    (ev : Evaluator) (pos : Position) :
    supply engine ev (.scripts number) path pos m = .ok ⟨found, false⟩ m := by
  unfold supply
  rw [bind_of_ok (show (get : Run Machine) m = .ok m m from rfl)]
  simp only [loaded]
  rfl

variable (absent : m.world.loaded.find? ⟨number, path⟩ = none)
include absent

theorem supply_missing (unwritten : m.world.sources.find? ⟨number, path⟩ = none) (ev : Evaluator)
    (pos : Position) :
    supply engine ev (.scripts number) path pos m = .error (.cause (.moduleNotFound path) pos) m := by
  unfold supply
  rw [bind_of_ok (show (get : Run Machine) m = .ok m m from rfl)]
  simp only [absent, unwritten]
  rfl

variable (written : m.world.sources.find? ⟨number, path⟩ = some source)
include written

theorem supply_circular (ev : Evaluator) (pos : Position) (busy : ⟨number, path⟩ ∈ m.world.loading) :
    supply engine ev (.scripts number) path pos m =
      Run.fail (.moduleNotFound (Text.lit "circular import of " ++ Text.inTicks path)) pos m := by
  have contains : m.world.loading.contains ⟨number, path⟩ = true := List.contains_iff_mem.mpr busy
  unfold supply
  rw [bind_of_ok (show (get : Run Machine) m = .ok m m from rfl)]
  simp only [absent, written, contains, if_true]
  rfl

/-- Importing a script means to compile it, to run it, and to keep the module. -/
theorem supply_script (ev : Evaluator) (pos : Position) (free : ⟨number, path⟩ ∉ m.world.loading) :
    supply engine ev (.scripts number) path pos m =
      match engine.compile false [source] m.world.nextClosure with
      | (.ok script, next) =>
        match runModule ev script (m.boarding ⟨number, path⟩ next) with
        | .ok found n => .ok ⟨found, true⟩ ((m.rejoin n ⟨number, path⟩).load ⟨number, path⟩ found)
        | .error h n => .error h (m.rejoin n ⟨number, path⟩)
      | (.error (.fault e), next) =>
        .error (.error e) { m with world := { m.world with nextClosure := next } }
      | (.error .exhausted, next) =>
        .error .outOfFuel { m with world := { m.world with nextClosure := next } } := by
  have contains : m.world.loading.contains ⟨number, path⟩ = false := by simpa using free
  unfold supply
  rw [bind_of_ok (show (get : Run Machine) m = .ok m m from rfl)]
  simp only [absent, written, contains, Bool.false_eq_true, if_false, whileLoading, compile, bind,
    EStateM.bind]
  generalize engine.compile false [source] m.world.nextClosure = compiled
  obtain ⟨result, next⟩ := compiled
  have back : (⟨number, path⟩ :: m.world.loading).erase ⟨number, path⟩ = m.world.loading := by simp
  cases result with
  | ok script =>
    unfold runModule isolated
    dsimp only [Machine.boarding]
    generalize (runTop ev script.statements >>= _) (freshMachine _ script.library) = r
    cases r with
    | ok found n => rfl
    | error h n => rfl
  | error stop =>
    cases stop with
    | fault e =>
      dsimp only
      rw [back]
    | exhausted =>
      dsimp only
      rw [back]

end Supplying

def Makes (L : Survey engine ι) (ev : ι → Evaluator) : Prop :=
  ∀ source first script next m found n vs, engine.compile false [source] first = (.ok script, next) →
    (∀ᶠ i in L.silent vs, runModule (ev i) script m = .ok found n) → L.course.made source found

theorem exports_goes (hev : L.Reads ev) {entries : List Entry}
    (hentries : ∀ e ∈ entries, L.passes e.value) {found : Dict Text Value}
    (hfound : ∀ e ∈ found, L.plain e.2) :
    L.Goes aside (fun values => ∀ e ∈ values, L.plain e.2) fun i => exports (ev i) entries found := by
  induction entries generalizing found with
  | nil => exact Goes.give hfound
  | cons e rest ih =>
    have later : ∀ e ∈ rest, L.passes e.value := fun e he => hentries e (List.mem_cons_of_mem _ he)
    unfold exports
    cases e.exported with
    | none => exact ih later hfound
    | some name =>
      apply Goes.bind (flatten_goes hev (hentries e List.mem_cons_self))
      rintro v ⟨hv, -⟩
      apply ih later
      intro x hx
      rcases Dict.mem_insert hx with rfl | old
      · exact hv
      · exact hfound x old

section Scripts

variable (hev : L.Reads ev) (exec : ∀ looping s, L.Permits looping (.stmt s) →
  L.Goes False L.plain fun i => (ev i).exec s)
include exec

theorem runTop_goes {statements : List Stmt}
    (permits : ∀ s ∈ statements, L.Permits false (.stmt s)) :
    L.Goes False L.plain fun i => runTop (ev i) statements := by
  intro m hm
  simp only [runTop_eq]
  exact (execAll_goes exec L.course.custody.plain_unit permits).caughtReturn m hm

include hev

theorem topModule_at {script : Script} (obeys : script.Obeys (Rule.lending L.course.custody.lends))
    {m : Machine} (hm : L.Ready m) (own : m.library = script.library) :
    L.Yields m (fun n => n)
      (fun found n => found.functions = n.library.functions ∧ (∀ e ∈ found.values, L.plain e.2) ∧
        ∀ e ∈ found.modules, e ∈ n.imports)
      (fun h _ => L.allows h) fun i => (do
        let _ ← runTop (ev i) script.statements
        let m ← get
        let values ← exports (ev i) m.scope.oldestFirst []
        return { functions := script.library.functions, values
                 modules := Dict.ofList m.imports.reverse } : Run Module) m := by
  refine Yields.bind (runTop_goes exec obeys.statements m hm) ?_ fun _ _ h => h.2
  rintro _ n acts leads -
  have hn := hm.leads leads
  have entries : ∀ e ∈ n.scope.oldestFirst, L.passes e.value :=
    fun e he => hn.tidy.scope e (List.mem_reverse.mp he)
  have exported : L.Goes True (fun values => ∀ e ∈ values, L.plain e.2) fun i =>
      exports (ev i) n.scope.oldestFirst [] := exports_goes hev entries (by simp)
  change L.Yields n _ _ _ fun i => (exports (ev i) n.scope.oldestFirst [] >>= fun values => _) n
  refine Yields.bind (exported n hn) ?_ fun _ _ h => h.2
  rintro values o acts' leads' ⟨-, plain⟩
  refine .const _ rfl ⟨?_, plain, ?_⟩
  · rw [← own, leads'.onward.library, leads.onward.library]
  · intro e he
    exact leads'.onward.imports.subset (List.mem_reverse.mp (Dict.mem_ofList he))

end Scripts

structure Inner (L : Survey engine ι) (shelf : Shelf) extends L.Aspect where
  embarks : ∀ m source script next, L.ready m → m.world.loaded.find? shelf = none →
    m.world.sources.find? shelf = some source → shelf ∉ m.world.loading → ready (m.embark shelf script next)

section Imports

variable (makes : L.Makes ev) {shelf : Shelf} (I : L.Inner shelf) (hev : I.survey.Reads ev)
  (exec : ∀ looping s, L.Permits looping (.stmt s) → I.survey.Goes False L.plain fun i => (ev i).exec s)
include makes hev exec

section Loading

variable {m : Machine} (hm : L.Ready m) {source : Text} {script : Script} {next : Nat}
  (absent : m.world.loaded.find? shelf = none) (written : m.world.sources.find? shelf = some source)
  (free : shelf ∉ m.world.loading)
  (compiled : engine.compile false [source] m.world.nextClosure = (.ok script, next))
include hm absent written free compiled

theorem load_acts : ∃ inner found n out, L.course.Leads (m.embark shelf script next) inner n ∧
    L.course.Leads m (.begin shelf script next :: (inner ++ [.finish found])) (ending out) ∧
    Ends (fun s n => n.scope = m.scope ∧ n.world.loaded.find? shelf = some s.supplied)
      (fun h n => n.scope = m.scope ∧ L.allows h) out ∧
    ∀ᶠ i in L.silent (m.alone.visits (.begin shelf script next :: (inner ++ [.finish found]))),
      (match runModule (ev i) script (m.boarding shelf next) with
        | .ok found n => .ok ⟨found, true⟩ ((m.rejoin n shelf).load shelf found)
        | .error h n => .error h (m.rejoin n shelf) : EStateM.Result Halt Machine Supplied) = out := by
  have obeys : script.Obeys (Rule.lending L.course.custody.lends) :=
    L.compiles source _ script next compiled
  have later : m.world.nextClosure ≤ next := by
    have le := engine.compile_next false [source] m.world.nextClosure
    rwa [compiled] at le
  have inside : I.survey.Ready (m.embark shelf script next) :=
    ⟨hm.tidy.embark shelf obeys.fair next, I.embarks m source script next hm.ready absent written free⟩
  have fits : L.course.Fits (.begin shelf script next) m.alone :=
    ⟨source, absent, written, free, compiled, obeys⟩
  obtain ⟨acts, out, leads, ends, agree⟩ := topModule_at hev exec obeys inside rfl
  have leads : L.course.Leads (m.embark shelf script next) acts (ending out) := leads
  have ran : ∀ᶠ i in L.silent ((m.embark shelf script next).alone.visits acts),
      runModule (ev i) script (m.boarding shelf next) =
        isolated script.library (fun _ => out) (m.boarding shelf next) :=
    agree.mono fun i same =>
      congrArg (fun out => isolated script.library (fun _ => out) (m.boarding shelf next)) same
  cases out with
  | error h n =>
    have done : L.course.Fits (.finish none) ⟨n, [.importer m shelf]⟩ :=
      ⟨m, shelf, [], rfl, fun _ never => by cases never⟩
    refine ⟨acts, none, n, .error h (m.rejoin n shelf), leads, leads.embark fits later done,
      ⟨rfl, ends⟩, ?_⟩
    refine (ran.filter_mono (L.antitone leads.visits_embark)).mono fun i same => ?_
    simp only [same]
    rfl
  | ok found n =>
    obtain ⟨functions, values, modules⟩ := ends
    have done : L.course.Fits (.finish (some found)) ⟨n, [.importer m shelf]⟩ := by
      refine ⟨m, shelf, [], rfl, fun module eq => ?_⟩
      cases eq
      exact ⟨functions, values, modules, source, written,
        makes source _ script next _ found _ _ compiled ran⟩
    refine ⟨acts, some found, n, .ok ⟨found, true⟩ ((m.rejoin n shelf).load shelf found), leads,
      leads.embark fits later done, ⟨rfl, Dict.find?_insert_self _ _ _⟩, ?_⟩
    refine (ran.filter_mono (L.antitone leads.visits_embark)).mono fun i same => ?_
    simp only [same]
    rfl

theorem load_at :
    L.Yields m (fun n => n) (fun s n => n.scope = m.scope ∧ n.Reaches s.supplied)
      (fun h n => n.scope = m.scope ∧ L.allows h) fun i =>
        (match runModule (ev i) script (m.boarding shelf next) with
          | .ok found n => .ok ⟨found, true⟩ ((m.rejoin n shelf).load shelf found)
          | .error h n => .error h (m.rejoin n shelf) : EStateM.Result Halt Machine Supplied) := by
  obtain ⟨inner, found, n, out, -, leads, ends, agree⟩ :=
    load_acts makes I hev exec hm absent written free compiled
  refine ⟨_, out, leads, ends.mono ?_ fun _ _ h => h, agree⟩
  exact fun _ _ h => ⟨h.1, .loaded h.2⟩

end Loading

theorem script_at {m : Machine} (hm : L.Ready m) {source : Text}
    (absent : m.world.loaded.find? shelf = none) (written : m.world.sources.find? shelf = some source)
    (free : shelf ∉ m.world.loading) :
    L.Yields m (fun n => n) (fun s n => n.scope = m.scope ∧ n.Reaches s.supplied)
      (fun h n => n.scope = m.scope ∧ L.allows h) fun i =>
        (match engine.compile false [source] m.world.nextClosure with
          | (.ok script, next) =>
            match runModule (ev i) script (m.boarding shelf next) with
            | .ok found n => .ok ⟨found, true⟩ ((m.rejoin n shelf).load shelf found)
            | .error h n => .error h (m.rejoin n shelf)
          | (.error (.fault e), next) =>
            .error (.error e) { m with world := { m.world with nextClosure := next } }
          | (.error .exhausted, next) =>
            .error .outOfFuel { m with world := { m.world with nextClosure := next } } :
          EStateM.Result Halt Machine Supplied) := by
  have settles := engine.compile_settles false [source] m.world.nextClosure
  have later := engine.compile_next false [source] m.world.nextClosure
  cases compiled : engine.compile false [source] m.world.nextClosure with
  | mk result next =>
    rw [compiled] at settles later
    cases result with
    | ok script => exact load_at makes I hev exec hm absent written free compiled
    | error stop =>
      cases stop with
      | exhausted => exact absurd rfl settles
      | fault e =>
        have onward : m.Onward { m with world := { m.world with nextClosure := next } } :=
          m.onward_idle (Nat.le_refl _) later _ _
        refine Yields.act (a := .idle m.operations m.world.progress next m.world.messages)
          ⟨Nat.le_refl _, later⟩ rfl onward ?_
        exact .const _ rfl ⟨rfl, trivial⟩

end Imports

section Suppliers

variable (makes : L.Makes ev) {path : Text} (I : ∀ number, L.Inner ⟨number, path⟩)
  (hev : ∀ number, (I number).survey.Reads ev)
  (exec : ∀ number looping s, L.Permits looping (.stmt s) →
    (I number).survey.Goes False L.plain fun i => (ev i).exec s)
include makes hev exec

theorem supply_at (supplier : Supplier) (pos : Position) {m : Machine} (hm : L.Ready m) :
    L.Yields m (fun n => n) (fun s n => n.scope = m.scope ∧ n.Reaches s.supplied)
      (fun h n => n.scope = m.scope ∧ L.allows h) fun i => supply engine (ev i) supplier path pos m := by
  have refused : ∀ cause, L.Yields m (fun n => n)
      (fun (s : Supplied) n => n.scope = m.scope ∧ n.Reaches s.supplied)
      (fun h n => n.scope = m.scope ∧ L.allows h) fun _ => Run.fail cause pos m :=
    fun cause => .const (.error (.cause cause pos) m) rfl ⟨rfl, trivial⟩
  cases supplier with
  | table number =>
    simp only [supply_table]
    cases known : m.world.table.find? ⟨number, path⟩ with
    | none => exact refused _
    | some found => exact .const _ rfl ⟨rfl, .table known⟩
  | scripts number =>
    cases loaded : m.world.loaded.find? ⟨number, path⟩ with
    | some found =>
      simp only [supply_loaded loaded]
      exact .const _ rfl ⟨rfl, .loaded loaded⟩
    | none =>
      cases written : m.world.sources.find? ⟨number, path⟩ with
      | none =>
        simp only [supply_missing loaded written]
        exact refused _
      | some source =>
        by_cases busy : ⟨number, path⟩ ∈ m.world.loading
        · simp only [supply_circular loaded written _ pos busy]
          exact refused _
        · simp only [supply_script loaded written _ pos busy]
          exact script_at makes (I number) (hev number) (exec number) hm loaded written busy

theorem supplyFirst_at (pos : Position) (suppliers : List Supplier) {m : Machine} (hm : L.Ready m) :
    L.Yields m (fun n => n) (fun s n => n.scope = m.scope ∧ n.Reaches s.supplied)
      (fun h n => n.scope = m.scope ∧ L.allows h)
      fun i => supplyFirst engine (ev i) path pos suppliers m := by
  induction suppliers generalizing m with
  | nil => exact .const (.error (.cause (.moduleNotFound path) pos) m) rfl ⟨rfl, trivial⟩
  | cons supplier rest ih =>
    simp only [supplyFirst_cons]
    refine (supply_at makes I hev exec supplier pos hm).handle
      (f := fun i out => askNext engine (ev i) path pos rest out) ?_
    intro out acts leads ends
    have given : L.Yields (ending out) (fun n => n)
        (fun s n => n.scope = m.scope ∧ n.Reaches s.supplied)
        (fun h n => n.scope = m.scope ∧ L.allows h) fun _ => out := .const out rfl ends
    cases out with
    | ok s n => exact given
    | error h n =>
      cases h with
      | error e =>
        obtain ⟨cause, errorPos⟩ := e
        cases cause with
        | moduleNotFound detail =>
          by_cases same : detail = path
          · simp only [askNext, if_pos same]
            have scope : n.scope = m.scope := ends.1
            exact scope ▸ ih (hm.leads leads)
          · simp only [askNext, if_neg same]
            exact given
        | _ => exact given
      | _ => exact given

theorem resolve_at (pos : Position) {m : Machine} (hm : L.Ready m) :
    L.Yields m (fun n => n) (fun s n => n.scope = m.scope ∧ n.Reaches s.supplied)
      (fun h n => n.scope = m.scope ∧ L.allows h) fun i => resolve engine (ev i) path pos m := by
  unfold resolve
  cases engine.resolver with
  | none => exact .const (.error (.cause (.moduleNotFound path) pos) m) rfl ⟨rfl, trivial⟩
  | some resolver =>
    cases resolver with
    | single supplier => exact supply_at makes I hev exec supplier pos hm
    | chain suppliers => exact supplyFirst_at makes I hev exec pos suppliers hm

end Suppliers

end Survey

end Scripting
