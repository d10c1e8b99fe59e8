import Scripting.Outcome
import Scripting.Script
import Scripting.Token

/-
Function pointers by name. Not every name can be pointed at, and the names of closures can be told
from all others.
-/
namespace Scripting.FnPointer

/-- The name can be pointed at: an identifier that is no word of the language. -/
def isPointable (name : Text) : Bool :=
  name.isIdentifier &&
    match Token.ofText? name with
    | some (.symbol s) => !s.isKeyword
    | some (.reserved t) => (Service.ofText? t).isSome
    | _ => true

def make (name : Text) (pos : Position) : Except Halt Value :=
  if isPointable name then .ok (.fn name []) else .error (.cause (.functionNotFound name) pos)

def isAnonymous (name : Text) : Bool := closureMark.isPrefixOf name

end Scripting.FnPointer
