import Scripting.Eval.Call
import Scripting.Package.Host

/-
Places: what an assignment writes to and what a method works on. A place is reached from a variable
or `this` by indices and properties; every container on the way is changed in place.
-/
namespace Scripting.Eval

variable (engine : Engine) (ev : Evaluator)

def arrayIndex (size : Nat) (index : Value) (pos : Position) : Run Nat :=
  match index with
  | .int .i64 n =>
    if n.val < 0 ∨ (size : Int) ≤ n.val then Run.fail (.indexing (.arrayBounds n.val size)) pos
    else return n.val.toNat
  | v => plainMismatch ev "i64" v pos

def mapKey (index : Value) (pos : Position) : Run Text :=
  match index with
  | .string t => return t
  | v => plainMismatch ev "string" v pos

/-- The character that an index means, with the bytes before and after it. -/
def locateChar (t : Text) (index : Value) (pos : Position) : Run (Text × CodePoint × Text) :=
  match index with
  | .int .i64 n =>
    match (if n.val < 0 then none else Utf8.locate n.val.toNat t) with
    | some found => return found
    | none => Run.fail (.indexing (.stringBounds n.val (Utf8.decode t).length)) pos
  | v => plainMismatch ev "i64" v pos

/-- The value of a variable. A qualified one is looked up in a module. -/
def readVariable (pos : Position) (name : Text) (path : List Text) : Run Value := do
  match path with
  | [] =>
    match (← get).scope.find? name with
    | none => Run.fail (.variableNotFound name) pos
    | some entry =>
      match entry.value with
      | .shared c => do flatten ev (← (← get).store.read c name pos)
      | v => return v
  | path =>
    match (← findModule path pos).value? name with
    | some v => return v
    | none => Run.fail (.variableNotFound (joinPath path name)) pos

variable {α : Type}

/-- Work on the held character of a string, and put it back when writing. -/
def atChar (t : Text) (index : Value) (forWrite : Bool) (pos : Position) (k : Held Value α) :
    Held Value α := do
  let (front, c, tail) ← Held.lift (locateChar ev t index pos)
  let (a, v) ← Held.lift (Held.drop (.char c) do return (← k, ← Held.held))
  if forWrite then
    match v with
    | .char c => Held.setHeld (.string (front ++ Utf8.encode c ++ tail))
    | v => Held.lift (mismatch engine ev "char" v pos)
  return a

/-- Work on an entry of the held map. A missing one is made when writing, and is unit otherwise. -/
def atKey (entries : List (Text × Value)) (key : Text) (forWrite : Bool) (pos : Position)
    (k : Held Value α) : Held Value α :=
  let onEntry (v : Value) : Held Value α :=
    Held.zoom v (fun v _ => .map (Dict.insert key v entries)) (Held.behind key pos k)
  match Dict.find? key entries with
  | some v => onEntry v
  | none => if forWrite then onEntry .unit else Held.lift (Held.drop .unit k)

/-- Work on a copy of something that natives read from and write to the held value. -/
def atAccessors (getName setName : Text) (index : List Value) (missing : Held Value α)
    (forWrite : Bool) (pos : Position) (k : Held Value α) : Held Value α := do
  let found ← tryMethod engine ev getName index pos
  if found.isNone && !forWrite then missing
  else
    let (a, v) ← Held.lift (Held.drop (found.getD .unit) do return (← k, ← Held.held))
    let written ← tryMethod engine ev setName (index ++ [v]) pos
    if written.isNone && forWrite then
      Held.lift (notFound engine ev setName ((← Held.held) :: index ++ [v]) pos)
    else return a

def atIndex (index : Value) (forWrite : Bool) (pos : Position) (k : Held Value α) :
    Held Value α := do
  match ← Held.held with
  | .array items =>
    let i ← Held.lift (arrayIndex ev items.length index pos)
    Held.zoom (items[i]?.getD .unit) (fun v _ => .array (items.set i v)) (Held.behind [] pos k)
  | .map entries =>
    let key ← Held.lift (mapKey ev index pos)
    atKey entries key forWrite pos k
  | .string t => atChar engine ev t index forWrite pos k
  | _ =>
    let missing : Held Value α := do
      let t ← Held.lift (typeOf ev (← Held.held))
      throw (.cause (.indexing (.unsupported (engine.typeName t))) pos)
    atAccessors engine ev Package.indexGetter Package.indexSetter [index] missing forWrite pos k

def atProperty (name : Text) (forWrite : Bool) (pos : Position) (k : Held Value α) :
    Held Value α := do
  match ← Held.held with
  | .map entries => atKey entries name forWrite pos k
  | _ =>
    let missing : Held Value α := do
      Held.lift (notFound engine ev (Package.getter name) [← Held.held] pos)
    atAccessors engine ev (Package.getter name) (Package.setter name) [] missing forWrite pos k

/-- Work on a variable. A constant cannot be written, and methods work on a copy of it. -/
def atVariable (name : Text) (forWrite : Bool) (pos : Position) (k : Held Value α) : Run α := do
  match (← get).scope.find? name with
  | none => Run.fail (.variableNotFound name) pos
  | some entry =>
    if entry.isConst then
      if forWrite then Run.fail (.assignmentToConstant name) pos
      else Held.drop (← flatten ev entry.value) k
    else Run.onVariable name entry.value (Held.behind name pos k)

/-- Work on the place that an expression stands for. Anything but a place is a passing value. -/
def access (expr : Expr) (forWrite : Bool) (k : Held Value α) : Run α :=
  match expr with
  | .var pos name [] => atVariable ev name forWrite pos k
  | .var pos name path => do
    if forWrite then Run.fail (.assignmentToConstant (joinPath path name)) pos
    else Held.drop (← readVariable ev pos name path) k
  | .this pos => do
    match (← get).this with
    | none => Run.fail (.variableNotFound Reserved.this) pos
    | some v => Run.onThis v (Held.behind Reserved.this pos k)
  | .index pos object index => do
    let i ← ev.eval index
    access object forWrite (atIndex engine ev i forWrite pos k)
  | .property pos object name =>
    access object forWrite (atProperty engine ev name forWrite pos k)
  | expr => do Held.drop (← ev.eval expr) k

end Scripting.Eval
