import Scripting.Store

/-
Values as a host sees them at one moment: trees in which cells are replaced by what they hold.
Function pointers can hold aliases of cells that lead back to themselves, so a pointer among the
arguments of another one shows only how many arguments it has.
-/
namespace Scripting

inductive Snapshot where
  /-- A value without parts. -/
  | plain (v : Value)
  | array (items : List Snapshot)
  | map (entries : List (Text × Snapshot))
  | fn (name : Text) (curry : List Snapshot)
  /-- A pointer among the arguments of another. -/
  | inner (name : Text) (count : Nat)
  | shared (content : Snapshot)

namespace Snapshot

/-- Look at a value; `among` says that it is among the arguments of a pointer. -/
def take (s : Store) : Nat → Bool → Value → Except Halt Snapshot
  | 0, _, _ => .error .outOfFuel
  | n + 1, among, v =>
    match v with
    | .array items => do return .array (← items.mapM (take s n among))
    | .map entries => do
      return .map (← entries.mapM fun (key, v) => do return (key, ← take s n among v))
    | .fn name curry => do
      if among then return .inner name curry.length
      else return .fn name (← curry.mapM (take s n true))
    | .shared c => do return .shared (← take s n among (← s.read c [] .nowhere))
    | v => .ok (.plain v)

end Snapshot

end Scripting
