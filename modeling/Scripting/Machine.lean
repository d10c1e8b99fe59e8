import Scripting.Engine
import Scripting.Scope
import Scripting.Store

/-
A running script: its variables, the shared cells, and what it has done to the outside so far. A
step that fails leaves the machine as it is at that moment; nothing is undone.
-/
namespace Scripting

inductive Message where
  | print (t : Text)
  | debug (t : Text) (pos : Position)

/-- Where a module belongs. The suppliers of a kind are numbered, and each has paths of its own. -/
structure Shelf where
  supplier : Nat
  path : Text
  deriving DecidableEq, Repr

instance : LT Shelf where
  lt a b := a.supplier < b.supplier ∨ a.supplier = b.supplier ∧ a.path < b.path

instance : DecidableLT Shelf := fun a b =>
  inferInstanceAs (Decidable (a.supplier < b.supplier ∨ a.supplier = b.supplier ∧ a.path < b.path))

/-- What outlives a single run: shared cells, messages, and the modules known so far. -/
structure World where
  store : Store := {}
  /-- Messages, the latest first. -/
  messages : List Message := []
  /-- The number of the next closure. -/
  nextClosure : Nat := 0
  /-- Finished modules. -/
  table : Dict Shelf Module := []
  /-- Scripts of modules. -/
  sources : Dict Shelf Text := []
  /-- Modules made from scripts. -/
  loaded : Dict Shelf Module := []
  /-- What scripts are being run for. -/
  loading : List Shelf := []
  /-- The number of operations that a watcher was last told. -/
  progress : Nat := 0

structure Machine where
  world : World
  scope : Scope := []
  /-- The functions of the running function's own script or module. -/
  library : Module
  /-- The functions of the script that the run started with. -/
  root : Module
  /-- The value that the running method works on. -/
  this : Option Value := none
  /-- Imported modules by alias, the latest first. -/
  imports : List (Text × Module) := []
  /-- The number of calls that are open. -/
  depth : Nat := 0
  operations : Nat := 0

abbrev Run := EStateM Halt Machine

abbrev Held (φ : Type) := EStateM Halt (φ × Machine)

namespace Machine

def store (m : Machine) : Store := m.world.store

def withStore (m : Machine) (s : Store) : Machine := { m with world := { m.world with store := s } }

def rewind (m : Machine) (entries imports : Nat) : Machine :=
  { m with scope := m.scope.rewind entries, imports := m.imports.drop (m.imports.length - imports) }

end Machine

namespace Held

variable {φ ψ α : Type}

def lift (k : Run α) : Held φ α := fun (x, m) =>
  match k m with
  | .ok a m => .ok a (x, m)
  | .error h m => .error h (x, m)

def drop (x : φ) (k : Held φ α) : Run α := fun m =>
  match k (x, m) with
  | .ok a (_, m) => .ok a m
  | .error h (_, m) => .error h m

/-- Hold a part of the held value, and put it back afterwards in every case. -/
def zoom (part : ψ) (restore : ψ → φ → φ) (k : Held ψ α) : Held φ α := fun (x, m) =>
  match k (part, m) with
  | .ok a (part, m) => .ok a (restore part x, m)
  | .error h (part, m) => .error h (restore part x, m)

/-- Hold a part of the machine, and put it back afterwards in every case. -/
def ofMachine (part : φ) (restore : φ → Machine → Machine) (k : Held φ α) : Run α := fun m =>
  match k (part, m) with
  | .ok a (part, m) => .ok a (restore part m)
  | .error h (part, m) => .error h (restore part m)

def held : Held φ φ := fun (x, m) => .ok x (x, m)

def setHeld (x : φ) : Held φ Unit := fun (_, m) => .ok () (x, m)

def ofCell (c : Nat) (name : Text) (pos : Position) (k : Held Value α) : Run α := fun m =>
  match m.store.beginWrite c name pos with
  | .error h => .error h m
  | .ok s =>
    ofMachine (s.cell c).value
      (fun v m => m.withStore ((m.store.setValue c v).endWrite c)) k (m.withStore s)

/-- Work on the held value itself, or, if it is an alias, on what it stands for. -/
def behind (name : Text) (pos : Position) (k : Held Value α) : Held Value α := do
  match ← held with
  | .shared c => lift (ofCell c name pos k)
  | _ => k

end Held

namespace Run

variable {α : Type}

def fail (cause : Cause) (pos : Position) : Run α := throw (.cause cause pos)

/-- Run a block: what it declares and imports is gone afterwards, however it ends. -/
def block (k : Run α) : Run α := fun m =>
  match k m with
  | .ok a n => .ok a (n.rewind m.scope.length m.imports.length)
  | .error h n => .error h (n.rewind m.scope.length m.imports.length)

def onVariable (name : Text) (v : Value) (k : Held Value α) : Run α :=
  Held.ofMachine v (fun v m => { m with scope := m.scope.setValue name v }) k

def onThis (v : Value) (k : Held Value α) : Run α :=
  Held.ofMachine v (fun v m => { m with this := some v }) k

end Run

end Scripting
