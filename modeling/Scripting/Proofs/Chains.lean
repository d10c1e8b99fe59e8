import Scripting.Proofs.Course.Import

/-
Chains of suppliers. A supplier that does not know a path says so with an error, and the chain goes on
at exactly that error. The script of a module can raise the very same one while it runs.
-/
namespace Scripting

/-- The supplier has a module of this path, or a script for one. -/
def World.Knows (w : World) (path : Text) : Supplier → Prop
  | .table number => (w.table.find? ⟨number, path⟩).isSome
  | .scripts number => (w.loaded.find? ⟨number, path⟩).isSome ∨ (w.sources.find? ⟨number, path⟩).isSome

namespace Eval

variable (engine : Engine) (ev : Evaluator) (path : Text) (pos : Position)

def load (shelf : Shelf) (source : Text) : Run Module := whileLoading shelf do
  let script ← compile engine false [source]
  runModule ev script

/-- The script of a path is run and ends with the error that there is no module of this path. -/
def Disowns (shelf : Shelf) (m : Machine) (errorPos : Position) (n : Machine) : Prop :=
  m.world.loaded.find? shelf = none ∧ shelf ∉ m.world.loading ∧
    ∃ source, m.world.sources.find? shelf = some source ∧
      load engine ev shelf source m = .error (.cause (.moduleNotFound shelf.path) errorPos) n

variable {engine ev path pos} {m n : Machine} {supplier : Supplier} {number : Nat} {errorPos : Position}

theorem supply_unknown (unknown : ¬ m.world.Knows path supplier) :
    supply engine ev supplier path pos m = .error (.cause (.moduleNotFound path) pos) m := by
  cases supplier with
  | table number =>
    have absent : m.world.table.find? ⟨number, path⟩ = none := Option.not_isSome_iff_eq_none.mp unknown
    rw [Survey.supply_table, absent]
  | scripts number =>
    obtain ⟨unloaded, unwritten⟩ := not_or.mp unknown
    exact Survey.supply_missing (Option.not_isSome_iff_eq_none.mp unloaded)
      (Option.not_isSome_iff_eq_none.mp unwritten) ev pos

/-- A path that is being loaded has an error of its own. -/
theorem circular_ne (path : Text) : Text.lit "circular import of " ++ Text.inTicks path ≠ path := by
  intro same
  have lengths := congrArg List.length same
  simp only [Text.inTicks, List.length_append] at lengths
  have ticked : 0 < (Text.lit "'").length := by decide
  omega

theorem supply_written {source : Text} (absent : m.world.loaded.find? ⟨number, path⟩ = none)
    (written : m.world.sources.find? ⟨number, path⟩ = some source)
    (free : ⟨number, path⟩ ∉ m.world.loading) :
    supply engine ev (.scripts number) path pos m = (do
      let found ← load engine ev ⟨number, path⟩ source
      modify fun n => { n with world := { n.world with
        loaded := n.world.loaded.insert ⟨number, path⟩ found } }
      return ⟨found, true⟩ : Run Supplied) m := by
  have contains : m.world.loading.contains ⟨number, path⟩ = false := by simpa using free
  unfold supply
  rw [bind_of_ok (show (get : Run Machine) m = .ok m m from rfl)]
  simp only [absent, written, contains, Bool.false_eq_true, if_false]
  rfl

/-- A supplier that knows the path says otherwise only if the script of the path does. -/
theorem disowns_of_denied (known : m.world.Knows path supplier)
    (denied : supply engine ev supplier path pos m = .error (.cause (.moduleNotFound path) errorPos) n) :
    ∃ number, supplier = .scripts number ∧ Disowns engine ev ⟨number, path⟩ m errorPos n := by
  cases supplier with
  | table number =>
    obtain ⟨found, there⟩ := Option.isSome_iff_exists.mp known
    rw [Survey.supply_table, there] at denied
    cases denied
  | scripts number =>
    refine ⟨number, rfl, ?_⟩
    cases absent : m.world.loaded.find? ⟨number, path⟩ with
    | some found =>
      rw [Survey.supply_loaded absent] at denied
      cases denied
    | none =>
      have isWritten : (m.world.sources.find? ⟨number, path⟩).isSome :=
        known.resolve_left fun loaded => by rw [absent] at loaded; cases loaded
      obtain ⟨source, written⟩ := Option.isSome_iff_exists.mp isWritten
      by_cases free : ⟨number, path⟩ ∈ m.world.loading
      · rw [Survey.supply_circular absent written ev pos free] at denied
        injection denied with halt
        injection halt with error
        injection error with cause
        injection cause with same
        exact absurd same (circular_ne path)
      · rw [supply_written absent written free] at denied
        cases loads : load engine ev ⟨number, path⟩ source m with
        | ok found o =>
          rw [bind_of_ok loads] at denied
          cases denied
        | error h o =>
          rw [bind_of_error loads] at denied
          cases denied
          exact ⟨absent, free, source, written, loads⟩

/-- A script that disowns its path looks like a supplier that does not know it. -/
theorem denied_of_disowns (disowns : Disowns engine ev ⟨number, path⟩ m errorPos n) :
    supply engine ev (.scripts number) path pos m = .error (.cause (.moduleNotFound path) errorPos) n := by
  obtain ⟨absent, free, source, written, loads⟩ := disowns
  rw [supply_written absent written free]
  exact bind_of_error loads _

theorem supplyFirst_denied {rest : List Supplier}
    (denied : supply engine ev supplier path pos m = .error (.cause (.moduleNotFound path) errorPos) n) :
    supplyFirst engine ev path pos (supplier :: rest) m = supplyFirst engine ev path pos rest n := by
  rw [supplyFirst_cons, denied]
  exact if_pos rfl

theorem supplyFirst_given {rest : List Supplier}
    (given : ∀ errorPos n,
      supply engine ev supplier path pos m ≠ .error (.cause (.moduleNotFound path) errorPos) n) :
    supplyFirst engine ev path pos (supplier :: rest) m = supply engine ev supplier path pos m := by
  rw [supplyFirst_cons]
  generalize supply engine ev supplier path pos m = outcome at given
  unfold askNext
  split
  · rename_i detail errorPos n
    exact if_neg fun same => given errorPos n (by rw [same]; rfl)
  · rfl

theorem supplyFirst_skips {before rest : List Supplier} (unknown : ∀ s ∈ before, ¬ m.world.Knows path s) :
    supplyFirst engine ev path pos (before ++ rest) m = supplyFirst engine ev path pos rest m := by
  induction before with
  | nil => rfl
  | cons s before ih =>
    obtain ⟨first, later⟩ := List.forall_mem_cons.mp unknown
    exact (supplyFirst_denied (supply_unknown first)).trans (ih later)

end Eval

open Eval

/-- A chain gives what the first supplier gives that knows the path, a module or an error, and says that
there is no module if none knows it. One error is lost: if this supplier runs the script of the path and
the script itself ends with the error that there is no module of this path, then the chain takes it for
a supplier that does not know the path, and goes on with the later ones. -/
theorem chain_gives_first_known (engine : Engine) (ev : Evaluator) (suppliers : List Supplier)
    (path : Text) (pos : Position) (m : Machine) :
    let chained := { engine with resolver := some (.chain suppliers) }
    let outcome := resolve chained ev path pos m
    ((∀ s ∈ suppliers, ¬ m.world.Knows path s) → outcome = .error (.cause (.moduleNotFound path) pos) m) ∧
    ∀ before s after, suppliers = before ++ s :: after → (∀ t ∈ before, ¬ m.world.Knows path t) →
      m.world.Knows path s →
      ((∀ number, s = .scripts number → ∀ errorPos n, ¬ Disowns chained ev ⟨number, path⟩ m errorPos n) →
        outcome = supply chained ev s path pos m) ∧
      ∀ number errorPos n, s = .scripts number → Disowns chained ev ⟨number, path⟩ m errorPos n →
        outcome = supplyFirst chained ev path pos after n := by
  intro chained outcome
  have asked : outcome = supplyFirst chained ev path pos suppliers m := rfl
  refine ⟨fun unknown => ?_, fun before s after split unknown known => ⟨fun owned => ?_, ?_⟩⟩
  · rw [asked, ← List.append_nil suppliers, supplyFirst_skips unknown]
    rfl
  · rw [asked, split, supplyFirst_skips unknown]
    refine supplyFirst_given fun errorPos n denied => ?_
    obtain ⟨number, scripts, disowns⟩ := disowns_of_denied known denied
    exact owned number scripts errorPos n disowns
  · rintro number errorPos n rfl disowns
    rw [asked, split, supplyFirst_skips unknown]
    exact supplyFirst_denied (denied_of_disowns disowns)

def scriptsThenTable : Engine :=
  { Engine.raw with resolver := some (.chain [.table 1, .scripts, .table]) }

def machineWith (source : Text) : Machine :=
  freshMachine { table := [(⟨0, Text.lit "a"⟩, {})], sources := [(⟨0, Text.lit "a"⟩, source)] } {}

theorem machineWith_absent (source : Text) :
    (machineWith source).world.loaded.find? ⟨0, Text.lit "a"⟩ = none := rfl

theorem machineWith_written (source : Text) :
    (machineWith source).world.sources.find? ⟨0, Text.lit "a"⟩ = some source := rfl

theorem machineWith_knows (source : Text) : (machineWith source).world.Knows (Text.lit "a") .scripts :=
  Or.inr rfl

theorem machineWith_unknown (source : Text) :
    ∀ s ∈ [.table 1], ¬ (machineWith source).world.Knows (Text.lit "a") s := by
  intro s mem known
  rw [List.mem_singleton.mp mem] at known
  cases known

/-- A script that cannot be read is an error, although the table has a module. -/
theorem chain_gives_first_known_unreadable :
    (machineWith (Text.lit ")")).world.Knows (Text.lit "a") .scripts ∧
    (∀ errorPos n, ¬ Disowns scriptsThenTable (evaluator scriptsThenTable 1) ⟨0, Text.lit "a"⟩
      (machineWith (Text.lit ")")) errorPos n) ∧
    ∃ n, resolve scriptsThenTable (evaluator scriptsThenTable 1) (Text.lit "a") ⟨1, 1⟩
      (machineWith (Text.lit ")")) =
        .error (.cause (.parsing (some .badInput) (Text.lit "Unexpected ')'")) ⟨1, 1⟩) n := by
  have compiled : scriptsThenTable.compile false [Text.lit ")"] 0 =
      (.error (.fault ⟨.parsing (some .badInput) (Text.lit "Unexpected ')'"), ⟨1, 1⟩⟩), 0) := by
    with_unfolding_all rfl
  obtain ⟨n, unread⟩ : ∃ n, supply scriptsThenTable (evaluator scriptsThenTable 1) .scripts (Text.lit "a")
      ⟨1, 1⟩ (machineWith (Text.lit ")")) =
        .error (.cause (.parsing (some .badInput) (Text.lit "Unexpected ')'")) ⟨1, 1⟩) n := by
    rw [Survey.supply_script (machineWith_absent _) (machineWith_written _) _ _ List.not_mem_nil]
    rw [show (machineWith (Text.lit ")")).world.nextClosure = 0 from rfl, compiled]
    exact ⟨_, rfl⟩
  have owned : ∀ errorPos n, ¬ Disowns scriptsThenTable (evaluator scriptsThenTable 1) ⟨0, Text.lit "a"⟩
      (machineWith (Text.lit ")")) errorPos n := by
    intro errorPos o disowns
    cases unread.symm.trans (denied_of_disowns disowns)
  have first := ((chain_gives_first_known scriptsThenTable (evaluator scriptsThenTable 1)
    [.table 1, .scripts, .table] (Text.lit "a") ⟨1, 1⟩ (machineWith (Text.lit ")"))).2 [.table 1] .scripts
    [.table] rfl (machineWith_unknown _) (machineWith_knows _)).1 (by rintro number ⟨⟩; exact owned)
  exact ⟨machineWith_knows _, owned, n, first.trans unread⟩

/-- The script `a::x` of the path `a` fails since it knows no module `a`, and the chain goes on to the
table. -/
theorem disowned_path_is_skipped :
    (machineWith (Text.lit "a::x")).world.Knows (Text.lit "a") .scripts ∧
    ∃ n, supply scriptsThenTable (evaluator scriptsThenTable 9) .scripts (Text.lit "a") ⟨1, 1⟩
        (machineWith (Text.lit "a::x")) = .error (.cause (.moduleNotFound (Text.lit "a")) ⟨1, 1⟩) n ∧
      resolve scriptsThenTable (evaluator scriptsThenTable 9) (Text.lit "a") ⟨1, 1⟩
        (machineWith (Text.lit "a::x")) = .ok ⟨{}, false⟩ n := by
  have compiled : scriptsThenTable.compile false [Text.lit "a::x"] 0 =
      (.ok { statements := [.expr ⟨1, 1⟩ (.var ⟨1, 1⟩ (Text.lit "x") [Text.lit "a"])] }, 0) := by
    with_unfolding_all rfl
  obtain ⟨n, disowned, kept⟩ : ∃ n, supply scriptsThenTable (evaluator scriptsThenTable 9) .scripts
      (Text.lit "a") ⟨1, 1⟩ (machineWith (Text.lit "a::x")) =
        .error (.cause (.moduleNotFound (Text.lit "a")) ⟨1, 1⟩) n ∧
      n.world.table.find? ⟨0, Text.lit "a"⟩ = some {} := by
    rw [Survey.supply_script (machineWith_absent _) (machineWith_written _) _ _ List.not_mem_nil]
    rw [show (machineWith (Text.lit "a::x")).world.nextClosure = 0 from rfl, compiled]
    exact ⟨_, by with_unfolding_all rfl, rfl⟩
  have table : supply scriptsThenTable (evaluator scriptsThenTable 9) .table (Text.lit "a") ⟨1, 1⟩ n =
      .ok ⟨{}, false⟩ n := by
    rw [Survey.supply_table, kept]
  refine ⟨machineWith_knows _, n, disowned, ?_⟩
  rw [show resolve scriptsThenTable _ _ _ _ = supplyFirst scriptsThenTable _ _ _ ([.table 1] ++ _) _ from
    rfl, supplyFirst_skips (machineWith_unknown _), supplyFirst_denied disowned, supplyFirst_cons, table]
  rfl

end Scripting
