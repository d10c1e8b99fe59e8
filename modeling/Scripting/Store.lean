import Scripting.Outcome

/-
The store of shared cells. A cell holds a value and knows who is using it: any number of readers, or
one writer. Nobody waits for a cell; using one that is in use otherwise is an error.
-/
namespace Scripting

structure Cell where
  value : Value
  readers : Nat := 0
  writer : Bool := false

instance : Inhabited Cell := ⟨⟨.unit, 0, false⟩⟩

structure Store where
  cells : Array Cell := #[]

namespace Store

def size (s : Store) : Nat := s.cells.size

def cell (s : Store) (c : Nat) : Cell := s.cells[c]?.getD default

def put (s : Store) (c : Nat) (cell : Cell) : Store := ⟨s.cells.setIfInBounds c cell⟩

@[simp]
theorem size_put (s : Store) (c : Nat) (cell : Cell) : (s.put c cell).size = s.size := by
  simp [put, size]

theorem cell_put_self {s : Store} {c : Nat} (h : c < s.size) (x : Cell) : (s.put c x).cell c = x := by
  have inside : c < s.cells.size := h
  simp [put, cell, inside]

theorem cell_put_of_ne {c d : Nat} (h : d ≠ c) (s : Store) (x : Cell) :
    (s.put c x).cell d = s.cell d := by
  simp [put, cell, Array.getElem?_setIfInBounds_ne h.symm]

def alloc (s : Store) (v : Value) : Store × Nat := (⟨s.cells.push ⟨v, 0, false⟩⟩, s.cells.size)

@[simp]
theorem size_alloc (s : Store) (v : Value) : (s.alloc v).1.size = s.size + 1 := by
  simp [alloc, size]

theorem cell_alloc_new (s : Store) (v : Value) : (s.alloc v).1.cell (s.alloc v).2 = ⟨v, 0, false⟩ := by
  simp [alloc, cell]

theorem cell_alloc_old {s : Store} {c : Nat} (h : c < s.size) (v : Value) :
    (s.alloc v).1.cell c = s.cell c := by
  have inside : c < s.cells.size := h
  simp [alloc, cell, Array.getElem?_push_lt inside, inside]

def read (s : Store) (c : Nat) (name : Text) (pos : Position) : Except Halt Value :=
  if (s.cell c).writer then .error (.cause (.dataRace name) pos) else .ok (s.cell c).value

def beginRead (s : Store) (c : Nat) (name : Text) (pos : Position) : Except Halt Store :=
  let cell := s.cell c
  if cell.writer then .error (.cause (.dataRace name) pos)
  else .ok (s.put c { cell with readers := cell.readers + 1 })

def endRead (s : Store) (c : Nat) : Store :=
  let cell := s.cell c
  s.put c { cell with readers := cell.readers - 1 }

def beginWrite (s : Store) (c : Nat) (name : Text) (pos : Position) : Except Halt Store :=
  let cell := s.cell c
  if cell.writer || cell.readers != 0 then .error (.cause (.dataRace name) pos)
  else .ok (s.put c { cell with writer := true })

def endWrite (s : Store) (c : Nat) : Store := s.put c { s.cell c with writer := false }

def setValue (s : Store) (c : Nat) (v : Value) : Store := s.put c { s.cell c with value := v }

def flatten (s : Store) : Nat → Value → Except Halt Value
  | 0, _ => .error .outOfFuel
  | n + 1, .shared c => do flatten s n (← s.read c [] .nowhere)
  | _ + 1, v => .ok v

def typeOf (s : Store) : Nat → Value → Except Halt ValueType
  | 0, _ => .error .outOfFuel
  | n + 1, .shared c => do typeOf s n (← s.read c [] .nowhere)
  | _ + 1, v => .ok v.plainType

/-- The plain value of the type that a host asks for, where `any` asks for every type. -/
def cast (s : Store) (fuel : Nat) (t : ValueType) (v : Value) : Except Halt Value := do
  let v ← s.flatten fuel v
  if t = .any ∨ v.plainType = t then return v
  else .error (.cause (.mismatchedType t.text v.plainType.text) .nowhere)

/-- An alias of a value. A value that is no alias yet moves into a new cell. -/
def share (s : Store) : Value → Store × Value
  | .shared c => (s, .shared c)
  | v =>
    let (s, c) := s.alloc v
    (s, .shared c)

end Store

end Scripting
