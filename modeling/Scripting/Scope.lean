import Scripting.Value

/-
The variables of a running function: a stack of entries. Later entries hide earlier ones of the same
name, and leaving a block cuts the stack back to its former size.
-/
namespace Scripting

structure Entry where
  name : Text
  value : Value
  isConst : Bool := false
  /-- The name under which the entry is exported. -/
  exported : Option Text := none

abbrev Scope := List Entry

namespace Scope

/-- The number of an entry counts from the oldest one, which has number zero. -/
def indexOf? (name : Text) : Scope → Option Nat
  | [] => none
  | e :: rest => if e.name = name then some rest.length else indexOf? name rest

def find? (name : Text) : Scope → Option Entry
  | [] => none
  | e :: rest => if e.name = name then some e else find? name rest

def push (s : Scope) (name : Text) (value : Value) (isConst : Bool) : Scope :=
  { name, value, isConst } :: s

def modify (name : Text) (f : Entry → Entry) : Scope → Scope
  | [] => []
  | e :: rest => if e.name = name then f e :: rest else e :: modify name f rest

def setValue (s : Scope) (name : Text) (v : Value) : Scope :=
  s.modify name fun e => { e with value := v }

def rewind (s : Scope) (size : Nat) : Scope := s.drop (s.length - size)

def oldestFirst (s : Scope) : List Entry := s.reverse

theorem map_name_modify (name : Text) (f : Entry → Entry) (h : ∀ e, (f e).name = e.name)
    (s : Scope) : (s.modify name f).map Entry.name = s.map Entry.name := by
  induction s with
  | nil => rfl
  | cons e rest ih => by_cases same : e.name = name <;> simp [modify, same, h, ih]

theorem setValue_self {s : Scope} {name : Text} {e : Entry} (found : s.find? name = some e) :
    s.setValue name e.value = s := by
  induction s with
  | nil => rfl
  | cons f rest ih =>
    unfold find? at found
    unfold setValue modify
    split at found
    · next same =>
      cases found
      rw [if_pos same]
    · next other =>
      rw [if_neg other]
      exact congrArg _ (ih found)

end Scope

end Scripting
