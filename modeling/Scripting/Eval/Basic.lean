import Scripting.Machine
import Scripting.Native.Apply

/-
What evaluation is made of: counting operations, looking at values through their aliases, keeping to
the size limits, and finding functions.
-/
namespace Scripting

/-- The parts of evaluation that contain each other, each with less fuel than the whole. -/
structure Evaluator where
  /-- Fuel for following values through containers and cells. -/
  fuel : Nat
  /-- What a native function that needs no script does in a store. -/
  native : Native → Store → List Value → Applied
  eval : Expr → Run Value
  exec : Stmt → Run Value
  /-- Call the function of a name with all its arguments on the held value, if there is one. Hidden
  functions can be left out. -/
  callNamed : Text → List Value → Bool → Position → Held (Option Value) Value

namespace Eval

def tick (engine : Engine) (pos : Position) : Run Unit := do
  let operations := (← get).operations + 1
  modify fun m => { m with operations := operations }
  let most := engine.limits.operations
  if 0 < most ∧ most < operations then Run.fail .tooManyOperations pos
  match engine.progress with
  | none => return ()
  | some stop =>
    modify fun m => { m with world := { m.world with progress := operations } }
    if 0 < stop ∧ stop ≤ operations then Run.fail .terminated pos

def say (engine : Engine) (message : Message) : Run Unit :=
  if engine.hasListener then
    modify fun m => { m with world := { m.world with messages := message :: m.world.messages } }
  else return ()

def flatten (ev : Evaluator) (v : Value) : Run Value := do (← get).store.flatten ev.fuel v

def typeOf (ev : Evaluator) (v : Value) : Run ValueType := do (← get).store.typeOf ev.fuel v

def displayText (ev : Evaluator) (v : Value) : Run Text := do v.displayText (← get).store ev.fuel

def debugText (ev : Evaluator) (v : Value) : Run Text := do v.debugText (← get).store ev.fuel

/-- Fail because a value has another type than the one wanted, which the engine names. -/
def mismatch {α : Type} (engine : Engine) (ev : Evaluator) (expected : String) (v : Value)
    (pos : Position) : Run α := do
  Run.fail (.mismatchedType (Text.lit expected) (engine.typeName (← typeOf ev v))) pos

/-- Fail because a value has another type than the one wanted, which goes by its own name. -/
def plainMismatch {α : Type} (ev : Evaluator) (expected : String) (v : Value) (pos : Position) :
    Run α := do
  Run.fail (.mismatchedType (Text.lit expected) (← typeOf ev v).text) pos

def requireBool (ev : Evaluator) (v : Value) (pos : Position) : Run Bool :=
  match v with
  | .bool b => return b
  | v => plainMismatch ev "bool" v pos

def checkSize (engine : Engine) (v : Value) (pos : Position) : Except Halt Unit :=
  let exceeds (limit size : Nat) : Bool := 0 < limit && limit < size
  let limits := engine.limits
  match v with
  | .string t =>
    if exceeds limits.string (Utf8.length t) then
      .error (.cause (.dataTooLarge .string limits.string) pos)
    else .ok ()
  | .array items =>
    if exceeds limits.array items.length then
      .error (.cause (.dataTooLarge .array limits.array) pos)
    else .ok ()
  | .map entries =>
    if exceeds limits.map entries.length then
      .error (.cause (.dataTooLarge .map limits.map) pos)
    else .ok ()
  | _ => .ok ()

/-- A script function and the module that its own calls are looked up in. -/
structure Target where
  function : ScriptFn
  library : Module

/-- The script function of a name: first in the running function's own library, then in that of the
script that the run started with. -/
def scriptFn? (name : Text) (arity : Nat) (exposedOnly : Bool) : Run (Option Target) := do
  let m ← get
  match m.library.scriptFn? name arity exposedOnly with
  | some f => return some ⟨f, m.library⟩
  | none => return (m.root.scriptFn? name arity exposedOnly).map (⟨·, m.root⟩)

def joinPath (path : List Text) (name : Text) : Text :=
  path.flatMap (· ++ Text.lit "::") ++ name

/-- Follow the rest of a path from a module; `seen` is the path so far. -/
def walkPath (pos : Position) : List Text → Module → List Text → Run Module
  | _, m, [] => return m
  | seen, m, name :: rest =>
    match m.module? name with
    | some sub => walkPath pos (seen ++ [name]) sub rest
    | none => Run.fail (.moduleNotFound (joinPath seen name)) pos

/-- The module that a path stands for. It starts at an imported module, or at a module that the
running function's own module has imported. -/
def findModule (path : List Text) (pos : Position) : Run Module := do
  match path with
  | [] => Run.fail (.moduleNotFound []) pos
  | first :: rest =>
    let m ← get
    match (Dict.find? first m.imports).or (m.library.module? first) with
    | some found => walkPath pos [first] found rest
    | none => Run.fail (.moduleNotFound first) pos

end Eval

end Scripting
