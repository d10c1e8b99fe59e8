import Scripting.Error
import Scripting.Value

/-
How a run can end other than with a value: by an error, by leaving a function or a loop, or because
its fuel is used up. The last is no answer of the script: with more fuel the run would go on.
-/
namespace Scripting

inductive Halt where
  | error (e : Error)
  | returning (v : Value)
  | breaking
  | continuing
  | outOfFuel

/-- The supply of fuel that the outside starts with, more than any run in practice uses up. -/
def ampleFuel : Nat := Nat.pow 2 40

def Halt.cause (cause : Cause) (pos : Position) : Halt := .error ⟨cause, pos⟩

instance {σ : Type} : MonadLift (Except Halt) (EStateM Halt σ) where
  monadLift
    | .ok a => pure a
    | .error h => throw h

end Scripting
