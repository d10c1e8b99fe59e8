import Scripting.Session

/-
Modules in a session: making and combining them, looking functions up, and the two suppliers that
imports are served from.
-/
namespace Scripting

structure Lookup where
  /-- The function of exactly these types. -/
  exact : Option Signature
  /-- That one, or else the one that takes least. -/
  resolved : Option Signature
  /-- The one that takes least, and what it takes. -/
  promoted : Option (Signature × Nat)
  /-- Is there a function of this name at all? -/
  contains : Bool
  /-- The script function of this number of parameters. -/
  script : Option Signature
  /-- The function for a plain call, if it is native. -/
  native : Option Signature

def Module.lookup (m : Module) (name : Text) (types : List ValueType) (method exposedOnly : Bool) :
    Lookup where
  exact := (m.withTypes? name types).map (·.1)
  resolved := (m.resolve? name types method).map (·.1)
  promoted := (m.promoted? name types method exposedOnly).map fun (f, cost) => (f.1, cost)
  contains := m.containsFn name
  script := (m.scriptFn? name types.length exposedOnly).map fun _ =>
    Signature.ofScript name types.length
  native := (m.resolve? name types false).bind fun f => if f.2.isScript then none else some f.1

structure Tagged where
  name : Text
  params : List ValueType
  tag : Text
  access : Access

def Module.addTagged (m : Module) (f : Tagged) : Module :=
  m.setNative f.name f.params (.tagged (.string f.tag)) f.access

namespace Session

def moduleOf (id : Text) : Hosted Module := do return ((← get).modules.find? id).getD {}

def keepModule (id : Text) (m : Module) : Hosted Module := do
  modify fun s => { s with modules := s.modules.insert id m }
  return m

/-- Make a module from its parts; with `standard` it starts from the standard package. -/
def makeModule (id : Text) (standard : Bool) (values : List (Text × Draft))
    (functions : List Tagged) (modules : List (Text × Text)) : Hosted Module := do
  let start := if standard then Package.coreModule else {}
  let m ← values.foldlM (fun m (name, d) => do return m.setVariable name (← build d)) start
  let m := functions.foldl Module.addTagged m
  let m ← modules.foldlM (fun m (name, sub) => do return m.setModule name (← moduleOf sub)) m
  keepModule id m

def addTagged (f : Tagged) : Hosted Unit :=
  changeEngine fun engine => { engine with globals := engine.globals.addTagged f }

def viewVariables (m : Module) : Hosted (List (Text × Snapshot)) :=
  m.values.mapM fun (name, v) => do return (name, ← look v)

def combine (a b id : Text) : Hosted Module := do keepModule id ((← moduleOf a).combine (← moduleOf b))

/-- Everything of two modules, with the modules inside the second one dissolved. -/
def absorb (a b id : Text) : Hosted Module := do keepModule id ((← moduleOf a).absorb (← moduleOf b))

def loadPackage (id : Text) : Hosted Unit := do
  let m ← moduleOf id
  changeEngine (·.addPackage m)

def changeWorld (f : World → World) : Hosted Unit := modify fun s => { s with world := f s.world }

/-- What suppliers of a kind have, without what the one of a number has. -/
def without {α : Type} (number : Nat) (d : Dict Shelf α) : Dict Shelf α :=
  d.filter fun entry => entry.1.supplier ≠ number

def tableSize (number : Nat := 0) : Hosted Nat := do
  return (← get).world.table.countP fun entry => entry.1.supplier = number

def tableContains (path : Text) (number : Nat := 0) : Hosted Bool := do
  return (← get).world.table.contains ⟨number, path⟩

def tableInsert (path id : Text) (number : Nat := 0) : Hosted Nat := do
  let m ← moduleOf id
  changeWorld fun w => { w with table := w.table.insert ⟨number, path⟩ m }
  tableSize number

def tableRemove (path : Text) (number : Nat := 0) : Hosted Bool := do
  let present ← tableContains path number
  changeWorld fun w => { w with table := w.table.erase ⟨number, path⟩ }
  return present

def tableClear (number : Nat := 0) : Hosted Nat := do
  changeWorld fun w => { w with table := without number w.table }
  tableSize number

/-- Put a script behind a path. A module made from an earlier one is forgotten. -/
def addSource (path script : Text) (number : Nat := 0) : Hosted Unit := changeWorld fun w =>
  { w with sources := w.sources.insert ⟨number, path⟩ script, loaded := w.loaded.erase ⟨number, path⟩ }

def sourceContains (path : Text) (number : Nat := 0) : Hosted Bool := do
  return (← get).world.sources.contains ⟨number, path⟩

def forgetLoaded (number : Nat := 0) : Hosted Unit := changeWorld fun w =>
  { w with loaded := without number w.loaded }

def setResolver (resolver : Option Resolver) : Hosted Unit :=
  changeEngine fun engine => { engine with resolver }

/-- Take all suppliers out of a chain; gives their number afterwards. An engine that gets its modules
from elsewhere is not touched. -/
def clearChain : Hosted Nat := do
  changeEngine fun engine => { engine with resolver := engine.resolver.map Resolver.cleared }
  return 0

def lend {α : Type} (scope : Scope) (k : Staged α) : Hosted (α × Scope) := fun s =>
  match k { world := s.world, scope } with
  | .ok a stage => .ok (a, stage.scope) { s with world := stage.world }
  | .error h stage => .error h { s with world := stage.world }

def lendWorld {α : Type} (k : Staged α) : Hosted α := do return (← lend [] k).1

/-- Resolve a path twice; the second outcome says whether the first module was given again. -/
def resolveTwice (path : Text) (pos : Position) : Hosted (Module × Bool) := do
  let engine := (← get).engine
  let first ← lendWorld (engine.resolveModule path pos)
  let second ← lendWorld (engine.resolveModule path pos)
  return (first.supplied, !second.fresh)

end Session

end Scripting
