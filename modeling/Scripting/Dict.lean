/-
Tables kept in the order of their keys: object maps, function tables, variables and sub-modules are
all listed in key order, so the order is kept by insertion and never recomputed.
-/
namespace Scripting

abbrev Dict (κ : Type u) (α : Type v) := List (κ × α)

namespace Dict

variable {κ : Type u} {α : Type v}

def find? [DecidableEq κ] (key : κ) : Dict κ α → Option α
  | [] => none
  | (k, v) :: rest => if k = key then some v else find? key rest

def contains [DecidableEq κ] (d : Dict κ α) (key : κ) : Bool := (d.find? key).isSome

/-- Put an entry at its place in the order; an entry of the same key is replaced. -/
def insert [DecidableEq κ] [LT κ] [DecidableLT κ] (key : κ) (value : α) : Dict κ α → Dict κ α
  | [] => [(key, value)]
  | (k, v) :: rest =>
    if k = key then (key, value) :: rest
    else if key < k then (key, value) :: (k, v) :: rest
    else (k, v) :: insert key value rest

def erase [DecidableEq κ] (key : κ) : Dict κ α → Dict κ α
  | [] => []
  | (k, v) :: rest => if k = key then rest else (k, v) :: erase key rest

/-- Put every entry of the second table into the first; where both have a key the second wins. -/
def merge [DecidableEq κ] [LT κ] [DecidableLT κ] (d e : Dict κ α) : Dict κ α :=
  e.foldl (fun acc entry => acc.insert entry.1 entry.2) d

/-- A table from entries in any order; later entries replace earlier ones. -/
def ofList [DecidableEq κ] [LT κ] [DecidableLT κ] (entries : List (κ × α)) : Dict κ α :=
  merge [] entries

@[simp]
theorem find?_insert_self [DecidableEq κ] [LT κ] [DecidableLT κ] (key : κ) (value : α)
    (d : Dict κ α) : find? key (insert key value d) = some value := by
  induction d with
  | nil => simp [insert, find?]
  | cons entry rest ih =>
    obtain ⟨k, v⟩ := entry
    by_cases same : k = key
    · simp [insert, find?, same]
    · by_cases before : key < k <;> simp [insert, find?, same, before, ih]

theorem find?_insert_of_ne [DecidableEq κ] [LT κ] [DecidableLT κ] {key other : κ} (h : other ≠ key)
    (value : α) (d : Dict κ α) : find? other (insert key value d) = find? other d := by
  induction d with
  | nil => simp [insert, find?, h.symm]
  | cons entry rest ih =>
    obtain ⟨k, v⟩ := entry
    by_cases same : k = key
    · subst same
      simp [insert, find?, h.symm]
    · by_cases before : key < k <;> simp [insert, find?, same, before, ih, h.symm]

theorem find?_erase_of_ne [DecidableEq κ] {key other : κ} (h : other ≠ key) (d : Dict κ α) :
    find? other (erase key d) = find? other d := by
  induction d with
  | nil => rfl
  | cons entry rest ih =>
    obtain ⟨k, v⟩ := entry
    by_cases same : k = key
    · subst same
      simp [erase, find?, h.symm]
    · simp [erase, find?, same, ih]

def keys (d : Dict κ α) : List κ := d.map (·.1)

def values (d : Dict κ α) : List α := d.map (·.2)

end Dict

end Scripting
