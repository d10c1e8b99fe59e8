import Scripting.Value.Display
import Scripting.Value.Draft
import Scripting.Value.Equal
import Scripting.Value.Pointer
import Scripting.Value.Snapshot

/-
A workbench: values in named slots and locks under names of their own. A host uses it to work with
values, aliases and locks without any script. A lock holds a cell, or the slot itself if what is in
the slot is no alias; locks of slots are never refused.
-/
namespace Scripting

inductive Grip where
  | slot (name : Text)
  | cell (c : Nat)
  deriving DecidableEq, Repr

structure Workbench where
  store : Store := {}
  slots : Dict Text Value := []
  /-- The locks for reading. -/
  reading : Dict Text Grip := []
  /-- The locks for writing. -/
  writing : Dict Text Grip := []

abbrev Work := EStateM Halt Workbench

namespace Workbench

/-- Locks for reading and for writing are asked for at these places. -/
def readPlace : Position := ⟨3, 4⟩

def writePlace : Position := ⟨5, 6⟩

def pointerPlace : Position := ⟨2, 9⟩

def slot (name : Text) : Work Value := do return ((← get).slots.find? name).getD .unit

def setSlot (name : Text) (v : Value) : Work Unit :=
  modify fun b => { b with slots := b.slots.insert name v }

def build (d : Draft) : Work Value := do
  let b ← get
  let (store, v) := d.build b.slots b.store
  set { b with store }
  return v

def buildAll (ds : List Draft) : Work (List Value) := ds.mapM build

def look (v : Value) : Work Snapshot := do Snapshot.take (← get).store ampleFuel false v

def deposit (dest : Text) (v : Value) : Work Snapshot := do
  setSlot dest v
  look v

def make (dest : Text) (d : Draft) : Work Snapshot := do deposit dest (← build d)

def copy (a dest : Text) : Work Unit := do setSlot dest (← slot a)

def assign (a b : Text) : Work Snapshot := do deposit a (← slot b)

/-- Put an alias of what is in a slot into another; the first keeps what it has. -/
def share (a dest : Text) : Work Snapshot := do
  let v ← slot a
  let b ← get
  let (cells, shared) := b.store.share v
  set { b with store := cells }
  deposit dest shared

def flatten (a dest : Text) : Work Snapshot := do
  deposit dest (← (← get).store.flatten ampleFuel (← slot a))

/-- Move a value from a slot, which holds unit afterwards, into another. -/
def take (a dest : Text) : Work Snapshot := do
  let v ← slot a
  setSlot a .unit
  deposit dest v

def isShared (a : Text) : Work Bool := do return (← slot a).isShared

def displayText (a : Text) : Work Text := do (← slot a).displayText (← get).store ampleFuel

def debugText (a : Text) : Work Text := do (← slot a).debugText (← get).store ampleFuel

def typeOf (a : Text) : Work ValueType := do (← get).store.typeOf ampleFuel (← slot a)

def equal (a b : Text) : Work Bool := do
  Value.equalAt (← get).store ampleFuel { same := a = b } (← slot a) (← slot b)

/-- The plain value of a slot, which has to be of the type asked for. -/
def cast (a : Text) (t : ValueType) : Work Value := do
  (← get).store.cast ampleFuel t (← slot a)

def write (a : Text) (name : Text) (d : Draft) : Work Snapshot := do
  let v ← build d
  match ← slot a with
  | .shared c =>
    let b ← get
    let cells ← b.store.beginWrite c name .nowhere
    set { b with store := (cells.setValue c v).endWrite c }
  | _ => setSlot a v
  look (← slot a)

def endReading (id : Text) : Work Unit := modify fun b =>
  let b' := { b with reading := b.reading.erase id }
  match b.reading.find? id with
  | some (.cell c) => { b' with store := b.store.endRead c }
  | _ => b'

def endWriting (id : Text) : Work Unit := modify fun b =>
  let b' := { b with writing := b.writing.erase id }
  match b.writing.find? id with
  | some (.cell c) => { b' with store := b.store.endWrite c }
  | _ => b'

/-- Lock a slot for reading. A lock of the same name is given up first. -/
def lockRead (a id name : Text) : Work Unit := do
  endReading id
  let b ← get
  match ← slot a with
  | .shared c =>
    let cells ← b.store.beginRead c name readPlace
    set { b with store := cells, reading := b.reading.insert id (.cell c) }
  | _ => set { b with reading := b.reading.insert id (.slot a) }

/-- Lock a slot for writing. A lock of the same name is given up first. -/
def lockWrite (a id name : Text) : Work Unit := do
  endWriting id
  let b ← get
  match ← slot a with
  | .shared c =>
    let cells ← b.store.beginWrite c name writePlace
    set { b with store := cells, writing := b.writing.insert id (.cell c) }
  | _ => set { b with writing := b.writing.insert id (.slot a) }

def gripped : Grip → Work Value
  | .slot name => slot name
  | .cell c => do return ((← get).store.cell c).value

def peek (id : Text) : Work Snapshot := do
  match (← get).reading.find? id with
  | some grip => look (← gripped grip)
  | none => look .unit

def poke (id : Text) (d : Draft) : Work Snapshot := do
  let v ← build d
  match (← get).writing.find? id with
  | some (.slot name) => setSlot name v
  | some (.cell c) => modify fun b => { b with store := b.store.setValue c v }
  | none => pure ()
  look v

def unlock (id : Text) : Work Unit := do
  endReading id
  endWriting id

def makePointer (name dest : Text) : Work Snapshot := do
  deposit dest (← FnPointer.make name pointerPlace)

def pointer (a : Text) : Work (Text × List Value) := do
  match ← cast a .fn with
  | .fn name curry => return (name, curry)
  | _ => return ([], [])

def curry (a dest : Text) (args : List Draft) : Work Snapshot := do
  let args ← buildAll args
  let (name, curry) ← pointer a
  deposit dest (.fn name (curry ++ args))

end Workbench

end Scripting
