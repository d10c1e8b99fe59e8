import Scripting.Eval

/-
The entry points of an engine. A host lends a run its world, its scope and perhaps a value to work
on as `this`, and gets all of them back however the run ends.
-/
namespace Scripting

structure Stage where
  world : World
  scope : Scope := []
  this : Option Value := none

abbrev Staged := EStateM Halt Stage

namespace Engine

variable (engine : Engine)

def evaluator : Evaluator := Eval.evaluator engine ampleFuel

/-- Run on the stage with the functions of a script, with `depth` calls already open. -/
def onStage {α : Type} (library : Module) (depth : Nat) (k : Run α) : Staged α := fun s =>
  let back (m : Machine) : Stage := { world := m.world, scope := m.scope, this := m.this }
  match k { world := s.world, scope := s.scope, this := s.this, library, root := library, depth } with
  | .ok a m => .ok a (back m)
  | .error h m => .error h (back m)

def compileOn (asExpression : Bool) (pieces : List Text) : Staged Script :=
  onStage {} 0 (Eval.compile engine asExpression pieces)

/-- Run the statements of a script. What they declare stays on the scope. -/
def run (script : Script) : Staged Value :=
  onStage script.library 0 (Eval.runTop engine.evaluator script.statements)

/-- Call an exposed function of a script on top of the scope. What it declares is gone afterwards;
the script's own statements are not run. -/
def callFunction (script : Script) (name : Text) (args : List Value) : Staged Value :=
  match script.library.scriptFn? name args.length true with
  | none => throw (.cause (.functionNotFound name) .nowhere)
  | some f => onStage script.library 1 (Run.block do
      modify fun m => { m with scope := Eval.bindParams f.params args m.scope }
      Eval.runBody engine.evaluator f.body)

def callPointer (script : Script) (fn : Value) (args : List Value) : Staged Value :=
  onStage script.library 0 (Held.drop none (Eval.callBack engine.evaluator .nowhere fn args))

def makeModule (script : Script) : Staged Module :=
  onStage {} 0 (Eval.runModule engine.evaluator script)

def resolveModule (path : Text) (pos : Position) : Staged Eval.Supplied :=
  onStage {} 0 (Eval.resolve engine engine.evaluator path pos)

/-- A result as the type that the host asks for. It is never converted, and `any` leaves it as it
is. -/
def convert (s : Store) (t : ValueType) (v : Value) : Except Halt Value := do
  if t = .any then return v
  let actual ← s.typeOf ampleFuel v
  if actual = t then s.flatten ampleFuel v
  else .error (.cause (.mismatchedType (engine.typeName t) (engine.typeName actual)) .nowhere)

end Engine

def Error.valueMissing (e : Error) : Text := Text.lit "EvalResult holds an error: " ++ e.message

def Error.absent : Text := Text.lit "EvalResult holds a value, not an error"

end Scripting
