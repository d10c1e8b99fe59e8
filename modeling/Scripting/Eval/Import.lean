import Scripting.Eval.Statement

/-
Imports. A module made from a script is run once and kept; a script that imports itself, directly or
through others, is an error.
-/
namespace Scripting.Eval

variable (engine : Engine) (ev : Evaluator)

def runTop (statements : List Stmt) : Run Value := fun m =>
  match execAll ev.exec .unit statements m with
  | .error (.returning v) m => .ok v m
  | outcome => outcome

def freshMachine (world : World) (library : Module) : Machine :=
  { world, library, root := library }

/-- Run in a machine of its own; only the world is shared with the caller. -/
def isolated {α : Type} (library : Module) (k : Run α) : Run α := fun m =>
  match k (freshMachine m.world library) with
  | .ok a n => .ok a { m with world := n.world }
  | .error h n => .error h { m with world := n.world }

def exports : List Entry → Dict Text Value → Run (Dict Text Value)
  | [], found => return found
  | e :: rest, found => do
    match e.exported with
    | some name => exports rest (found.insert name (← flatten ev e.value))
    | none => exports rest found

/-- Run a script as a module: its exported variables, its functions, and the modules it imported at
top level. -/
def runModule (script : Script) : Run Module :=
  let library := script.library
  isolated library do
    let _ ← runTop ev script.statements
    let m ← get
    let values ← exports ev m.scope.oldestFirst []
    return { functions := library.functions, values
             modules := Dict.ofList m.imports.reverse }

def compile (asExpression : Bool) (pieces : List Text) : Run Script := fun m =>
  let (result, next) := engine.compile asExpression pieces m.world.nextClosure
  let m := { m with world := { m.world with nextClosure := next } }
  match result with
  | .ok script => .ok script m
  | .error (.fault e) => .error (.error e) m
  | .error .exhausted => .error .outOfFuel m

def whileLoading {α : Type} (shelf : Shelf) (k : Run α) : Run α := fun m =>
  let mark (m : Machine) (f : List Shelf → List Shelf) : Machine :=
    { m with world := { m.world with loading := f m.world.loading } }
  match k (mark m (shelf :: ·)) with
  | .ok a m => .ok a (mark m (·.erase shelf))
  | .error h m => .error h (mark m (·.erase shelf))

structure Supplied where
  supplied : Module
  fresh : Bool

def supply (supplier : Supplier) (path : Text) (pos : Position) : Run Supplied := do
  let world := (← get).world
  match supplier with
  | .table number =>
    match world.table.find? ⟨number, path⟩ with
    | some found => return ⟨found, false⟩
    | none => Run.fail (.moduleNotFound path) pos
  | .scripts number =>
    let shelf : Shelf := ⟨number, path⟩
    match world.loaded.find? shelf with
    | some found => return ⟨found, false⟩
    | none =>
      match world.sources.find? shelf with
      | none => Run.fail (.moduleNotFound path) pos
      | some source =>
        if world.loading.contains shelf then
          Run.fail (.moduleNotFound (Text.lit "circular import of " ++ Text.inTicks path)) pos
        let found ← whileLoading shelf do
          let script ← compile engine false [source]
          runModule ev script
        modify fun m => { m with world := { m.world with loaded := m.world.loaded.insert shelf found } }
        return ⟨found, true⟩

def supplyFirst (path : Text) (pos : Position) : List Supplier → Run Supplied
  | [] => Run.fail (.moduleNotFound path) pos
  | supplier :: rest => fun m =>
    match supply engine ev supplier path pos m with
    | .error (.error ⟨.moduleNotFound detail, errorPos⟩) m =>
      if detail = path then supplyFirst path pos rest m
      else .error (.error ⟨.moduleNotFound detail, errorPos⟩) m
    | outcome => outcome

def resolve (path : Text) (pos : Position) : Run Supplied :=
  match engine.resolver with
  | none => Run.fail (.moduleNotFound path) pos
  | some (.single supplier) => supply engine ev supplier path pos
  | some (.chain suppliers) => supplyFirst engine ev path pos suppliers

def execImport (path : Expr) (asName : Option Text) : Run Unit := do
  match ← ev.eval path with
  | .string t => bindImport asName (← resolve engine ev t path.pos).supplied
  | v => mismatch engine ev "string" v path.pos

end Scripting.Eval
