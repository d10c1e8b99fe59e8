import Scripting.Eval.Import
import Scripting.Proofs.Contract.Parts

/-
Imports side by side. A module that is run for an import has a machine of its own, and only the
world is shared with the script that imports it.
-/
namespace Scripting.Eval

variable {engine : Engine} {C : Contract engine} {ev ev' : Evaluator}

open Contract

theorem runTop_eq (ev : Evaluator) (statements : List Stmt) (m : Machine) :
    runTop ev statements m = caughtReturn (execAll ev.exec .unit statements m) := by
  unfold runTop caughtReturn
  cases execAll ev.exec .unit statements m with
  | ok v n => rfl
  | error h n => cases h <;> rfl

theorem isolated_eq {α : Type} (library : Module) (k : Run α) (m : Machine) :
    isolated library k m =
      inState (fun n => { m with world := n.world }) (k (freshMachine m.world library)) := by
  unfold isolated inState
  cases k (freshMachine m.world library) <;> rfl

theorem whileLoading_eq {α : Type} (shelf : Shelf) (k : Run α) (m : Machine) :
    whileLoading shelf k m =
      inState (fun n => { n with world := { n.world with loading := n.world.loading.erase shelf } })
        (k { m with world := { m.world with loading := shelf :: m.world.loading } }) := by
  unfold whileLoading inState
  dsimp only
  cases k _ <;> rfl

theorem isolated_keeps {α : Type} {Q : α → Prop} {k k' : Run α} (h : C.Grows Q k k')
    {library : Module} (fair : library.Fair C.kind) :
    C.Keeps Q (isolated library k) (isolated library k') := by
  intro m hm
  have inside : C.Inv (freshMachine m.world library) :=
    ⟨Machine.tidy_fresh hm.1.world fair, C.discipline.isolate library hm.2⟩
  have back : ∀ n, C.Stride (freshMachine m.world library) n → C.Step m { m with world := n.world } := by
    intro n hn
    obtain ⟨keeps, holds⟩ := C.discipline.rejoin hm.2 hn.1 hn.2.2
    exact ⟨keeps, hm.1.withWorld hn.2.1.world, holds⟩
  rw [isolated_eq, isolated_eq]
  exact (h _ inside).map (fun _ n hn => ⟨back n hn.1, hn.2⟩) fun _ n hn => ⟨back n hn.1, hn.2⟩

theorem compile_keeps (asExpression : Bool) (pieces : List Text) :
    C.Keeps (fun _ => True) (compile engine asExpression pieces)
      (compile (engine.inMode C.mode) asExpression pieces) := by
  intro m hm
  unfold compile
  rw [Engine.inMode_compile]
  generalize engine.compile asExpression pieces m.world.nextClosure = compiled
  obtain ⟨result, next⟩ := compiled
  have step := step_idle hm m.operations m.world.progress next m.world.messages m.world.loading
  cases result with
  | ok script => exact .ok ⟨step, trivial⟩
  | error stop =>
    cases stop with
    | fault e => exact .error ⟨step, signal_of_fault rfl⟩
    | exhausted => exact .error ⟨step, signal_of_fault rfl⟩

theorem whileLoading_keeps {α : Type} {Q : α → Prop} {k k' : Run α} (h : C.Keeps Q k k')
    (shelf : Shelf) : C.Keeps Q (whileLoading shelf k) (whileLoading shelf k') := by
  have marked : ∀ (m : Machine) (f : List Shelf → List Shelf), C.Inv m →
      C.Step m { m with world := { m.world with loading := f m.world.loading } } := fun m f hm =>
    step_idle hm m.operations m.world.progress m.world.nextClosure m.world.messages _
  intro m hm
  have first := marked m (shelf :: ·) hm
  rw [whileLoading_eq, whileLoading_eq]
  refine (h _ first.2).map ?_ ?_
  · exact fun _ n hn => ⟨first.trans (hn.1.trans (marked n (·.erase shelf) hn.1.2)), hn.2⟩
  · exact fun _ n hn => ⟨first.trans (hn.1.trans (marked n (·.erase shelf) hn.1.2)), hn.2⟩

section

variable (hev : C.Evaluators ev ev')
include hev

theorem runTop_grows (statements : List Stmt) :
    C.Grows C.kind.plain (runTop ev statements) (runTop ev' statements) := by
  intro m hm
  rw [runTop_eq, runTop_eq]
  exact (execAll_grows hev C.kind.plain_unit statements m hm).caughtReturn C.returning
    fun v n hn => ⟨hn.1, hn.2 v rfl⟩

theorem exports_keeps {entries : List Entry} (hentries : ∀ e ∈ entries, C.kind.passes e.value)
    {found : Dict Text Value} (hfound : ∀ e ∈ found, C.kind.plain e.2) :
    C.Keeps (fun values => ∀ e ∈ values, C.kind.plain e.2) (exports ev entries found)
      (exports ev' entries found) := by
  induction entries generalizing found with
  | nil => exact Keeps.give hfound
  | cons e rest ih =>
    have later : ∀ e ∈ rest, C.kind.passes e.value :=
      fun e he => hentries e (List.mem_cons_of_mem _ he)
    unfold exports
    cases e.exported with
    | none => exact ih later hfound
    | some name =>
      refine Keeps.bind (flatten_keeps hev (hentries e List.mem_cons_self)) fun v hv => ?_
      refine ih later ?_
      intro x hx
      rcases Dict.mem_insert hx with rfl | old
      · exact hv
      · exact hfound x old

theorem runModule_keeps (script : Script) :
    C.Keeps (fun found => found.Fair C.kind) (runModule ev script) (runModule ev' script) := by
  have fair : script.library.Fair C.kind := Module.fair_ofFunctions C.kind script.functions
  refine isolated_keeps ?_ fair
  refine Grows.bind (runTop_grows hev script.statements) fun _ _ => ?_
  refine Grows.get_bind fun m hm => ?_
  have entries : ∀ e ∈ m.scope.oldestFirst, C.kind.passes e.value :=
    fun e he => hm.1.scope e (List.mem_reverse.mp he)
  refine (Keeps.bind (exports_keeps hev entries (by simp)) fun values hvalues => Keeps.give ?_).grows
  refine .intro fair.functions hvalues ?_
  intro e he
  exact hm.1.imports e (List.mem_reverse.mp (Dict.mem_ofList he))

theorem supply_keeps (supplier : Supplier) (path : Text) (pos : Position) :
    C.Keeps (fun s => s.supplied.Fair C.kind) (supply engine ev supplier path pos)
      (supply (engine.inMode C.mode) ev' supplier path pos) := by
  refine Keeps.get_bind fun m hm => ?_
  cases supplier with
  | table number =>
    dsimp only
    cases known : m.world.table.find? ⟨number, path⟩ with
    | some found =>
      refine Keeps.give ?_ m hm
      exact hm.1.world.table _ (Dict.mem_of_find? known)
    | none => exact Keeps.fail _ pos m hm
  | scripts number =>
    dsimp only
    cases known : m.world.loaded.find? ⟨number, path⟩ with
    | some found =>
      refine Keeps.give ?_ m hm
      exact hm.1.world.loaded _ (Dict.mem_of_find? known)
    | none =>
      cases m.world.sources.find? ⟨number, path⟩ with
      | none => exact Keeps.fail _ pos m hm
      | some source =>
        have load : C.Keeps (fun found => found.Fair C.kind)
            (whileLoading ⟨number, path⟩ (do runModule ev (← compile engine false [source])))
            (whileLoading ⟨number, path⟩ (do
              runModule ev' (← compile (engine.inMode C.mode) false [source]))) :=
          whileLoading_keeps (Keeps.bind (compile_keeps false [source]) fun script _ =>
            runModule_keeps hev script) ⟨number, path⟩
        dsimp only
        split
        · exact Keeps.fail_bind _ pos m hm
        · refine Keeps.bind load (fun found fair => ?_) m hm
          refine Keeps.bind (Keeps.change fun n hn => ?_) fun _ _ => Keeps.give fair
          obtain ⟨keeps, holds⟩ := C.discipline.load ⟨number, path⟩ hn.2 fair
          exact ⟨keeps, hn.1.withWorld (hn.1.world.load fair ⟨number, path⟩), holds⟩

theorem supplyFirst_keeps (path : Text) (pos : Position) (suppliers : List Supplier) :
    C.Keeps (fun s => s.supplied.Fair C.kind) (supplyFirst engine ev path pos suppliers)
      (supplyFirst (engine.inMode C.mode) ev' path pos suppliers) := by
  induction suppliers with
  | nil => exact Keeps.fail _ pos
  | cons supplier rest ih =>
    intro m hm
    have ends := supply_keeps hev supplier path pos m hm
    unfold supplyFirst
    generalize supply engine ev supplier path pos m = r at ends ⊢
    generalize supply (engine.inMode C.mode) ev' supplier path pos m = r' at ends ⊢
    cases ends with
    | ok h => exact .ok h
    | @error e n h =>
      split
      · next detail errorPos p eq =>
        cases eq
        split
        · exact Keeps.after h.1 (ih _ h.1.2)
        · exact .error h
      · exact .error h
    | @excused e n r h =>
      split
      · next detail errorPos p eq =>
        cases eq
        exact absurd h (C.missing detail errorPos)
      · exact .excused h

theorem resolve_keeps (path : Text) (pos : Position) :
    C.Keeps (fun s => s.supplied.Fair C.kind) (resolve engine ev path pos)
      (resolve (engine.inMode C.mode) ev' path pos) := by
  unfold resolve
  rw [Engine.inMode_resolver]
  split
  · exact Keeps.fail _ pos
  · exact supply_keeps hev _ path pos
  · exact supplyFirst_keeps hev path pos _

end

end Scripting.Eval
