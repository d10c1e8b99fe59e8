import Scripting.Eval.Expression

/-
Statements, loops and imports.
-/
namespace Scripting.Eval

variable (engine : Engine) (ev : Evaluator)

def execDeclare (pos : Position) (isConst : Bool) (name : Text) (value : Option Expr) :
    Run Unit := do
  let v ← match value with
    | some e => ev.eval e
    | none => pure .unit
  let v ← plain ev v
  checkSize engine v pos
  modify fun m => { m with scope := m.scope.push name v isConst }

/-- Work the right side of a compound assignment into the held value: by the function of the
assignment in place, or else by the plain operator. -/
def compound (operator : Text) (right : Value) (pos : Position) : Held Value Unit := do
  match ← tryMethod engine ev operator [right] pos with
  | some _ => return ()
  | none =>
    let v ← Held.lift (callByValue engine ev operator.dropLast [← Held.held, right] pos)
    Held.setHeld v
    checkSize engine v pos

def execAssign (pos : Position) (operator : Text) (target value : Expr) : Run Unit := do
  let right ← plain ev (← ev.eval value)
  if operator.isEmpty then
    checkSize engine right pos
    access engine ev target true (Held.setHeld right)
  else access engine ev target true (compound engine ev operator right pos)

def loopTurn (k : Run Value) : Run Bool := fun m =>
  match k m with
  | .ok _ m => .ok true m
  | .error .breaking m => .ok false m
  | .error .continuing m => .ok true m
  | .error h m => .error h m

def repeatWhile (condition : Option Expr) (body : Expr) : Nat → Run Unit
  | 0 => throw .outOfFuel
  | n + 1 => do
    let go ← match condition with
      | some e => requireBool ev (← ev.eval e) e.pos
      | none => pure true
    if go then
      if ← loopTurn (ev.eval body) then repeatWhile condition body n

/-- Run a body for each item, with the item in a variable of its own. -/
def forEach (name : Text) (body : Expr) : List Value → Run Unit
  | [] => return ()
  | v :: rest => do
    let turn : Run Value := do
      modify fun m => { m with scope := m.scope.push name v false }
      ev.eval body
    if ← Run.block (loopTurn turn) then forEach name body rest

def execEach (name : Text) (items body : Expr) : Run Unit := do
  match ← ev.eval items with
  | .array values => forEach ev name body values
  | .string t => forEach ev name body ((Utf8.decode t).map .char)
  | v => mismatch engine ev "array or string" v items.pos

def execExport (pos : Position) : List (Text × Option Text) → Run Unit
  | [] => return ()
  | (name, asName) :: rest => do
    match (← get).scope.find? name with
    | none => Run.fail (.variableNotFound name) pos
    | some _ =>
      modify fun m => { m with
        scope := m.scope.modify name fun e => { e with exported := some (asName.getD name) } }
      execExport pos rest

def bindImport (asName : Option Text) (found : Module) : Run Unit :=
  match asName with
  | some name => modify fun m => { m with imports := (name, found) :: m.imports }
  | none => return ()

def optionalValue (value : Option Expr) : Run Value :=
  match value with
  | some e => ev.eval e
  | none => return .unit

end Scripting.Eval
