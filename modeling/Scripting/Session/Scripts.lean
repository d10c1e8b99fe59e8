import Scripting.Session.Library

/-
Scripts in a session: compiling, running and calling them on the session's scope or on one of their
own.
-/
namespace Scripting.Session

/-- Lend the world, the session's scope and a value to work on. All come back however the run
ends; the value after the run is given together with the outcome. -/
def lendScope {α : Type} (this : Option Value) (k : Staged α) : Hosted (Except Halt α × Option Value) :=
  fun s =>
    let back (stage : Stage) : Session := { s with world := stage.world, scope := stage.scope }
    match k { world := s.world, scope := s.scope, this } with
    | .ok a stage => .ok (.ok a, stage.this) (back stage)
    | .error h stage => .ok (.error h, stage.this) (back stage)

def onScope {α : Type} (fresh : Bool) (k : Staged α) : Hosted α := do
  if fresh then lendWorld k
  else
    let (outcome, _) ← lendScope none k
    outcome

def script (id : Text) : Hosted Script := do return ((← get).scripts.find? id).getD {}

def keepScript (id : Text) (s : Script) : Hosted Script := do
  modify fun session => { session with scripts := session.scripts.insert id s }
  return s

def compile (asExpression : Bool) (pieces : List Text) : Hosted Script := do
  lendWorld ((← get).engine.compileOn asExpression pieces)

def convert (t : ValueType) (v : Value) : Hosted Value := do
  let s ← get
  s.engine.convert s.world.store t v

def eval (s : Script) (t : ValueType) (fresh : Bool) : Hosted Value := do
  convert t (← onScope fresh ((← get).engine.run s))

def evalText (source : Text) (asExpression : Bool) (t : ValueType) (fresh : Bool) : Hosted Value := do
  eval (← compile asExpression [source]) t fresh

def consume (source : Text) (fresh : Bool) : Hosted Unit := do
  let _ ← evalText source false .any fresh

/-- The outcome of evaluating a text to an integer on a scope of its own. -/
def evalInteger (source : Text) : Hosted (Except Error Integer) := fun s =>
  match evalText source false .i64 true s with
  | .ok (.int .i64 n) s => .ok (.ok n) s
  | .ok _ s => .error .outOfFuel s
  | .error (.error e) s => .ok (.error e) s
  | .error h s => .error h s

def call (s : Script) (name : Text) (args : List Value) (t : ValueType) : Hosted Value := do
  convert t (← onScope false ((← get).engine.callFunction s name args))

/-- Call a function of a script on a value; gives also what became of the value. -/
def callOn (s : Script) (name : Text) (args : List Value) (this : Value) :
    Hosted (Except Halt Value × Value) := do
  let (outcome, this') ← lendScope (some this) ((← get).engine.callFunction s name args)
  return (outcome, this'.getD this)

def callPointer (s : Script) (fn : Value) (args : List Value) : Hosted Value := do
  let session ← get
  let fn ← session.world.store.cast ampleFuel .fn fn
  lendWorld (session.engine.callPointer s fn args)

/-- Call a function of a script on a scope of its own. The failure of a call is its outcome. -/
def callAlone (s : Script) (name : Text) (args : List Value) (t : ValueType) :
    Hosted (Except Halt Value) := fun session =>
  let k : Hosted Value := do convert t (← lendWorld (session.engine.callFunction s name args))
  match k session with
  | .ok v session => .ok (.ok v) session
  | .error h session => .ok (.error h) session

def moduleOfScript (s : Script) (id : Text) : Hosted Module := do
  keepModule id (← lendWorld ((← get).engine.makeModule s))

end Scripting.Session
