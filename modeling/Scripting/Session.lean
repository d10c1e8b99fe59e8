import Scripting.Stage
import Scripting.Value.Draft
import Scripting.Value.Snapshot

/-
A session: a host working with one engine. The host keeps a scope, compiled scripts, modules and
values under names, and every step of the session works on what the steps before it have left.
-/
namespace Scripting

structure Session where
  engine : Engine
  world : World := {}
  scope : Scope := []
  modules : Dict Text Module := []
  scripts : Dict Text Script := []
  /-- Results of earlier steps. -/
  kept : Dict Text Value := []

/-- A step of a session. A step that fails keeps what it has done so far. -/
abbrev Hosted := EStateM Halt Session

def Message.line : Message → Text
  | .print t => t ++ Text.lit "\n"
  | .debug t pos =>
    (if pos.isNowhere then [] else pos.text ++ Text.lit " | ") ++ t ++ Text.lit "\n"

structure EntryView where
  name : Text
  value : Snapshot
  isConst : Bool
  exported : Option Text

namespace Session

/-- A session with a new engine. The host listens to it, unless it leaves the output to the engine
and the engine has none. -/
def start (arithmetic : Arithmetic) (raw console : Bool) : Session :=
  let engine := if raw then Engine.raw else Engine.standard
  { engine := { engine with arithmetic, hasListener := !(raw && console) } }

/-- Forget the messages and the count of operations of earlier steps. -/
def beginStep : Hosted Unit := modify fun s =>
  { s with world := { s.world with messages := [], progress := 0 } }

def messages (s : Session) : List Message := s.world.messages.reverse

def console (s : Session) : Text := s.messages.flatMap Message.line

def changeEngine (f : Engine → Engine) : Hosted Unit := modify fun s => { s with engine := f s.engine }

def build (d : Draft) : Hosted Value := do
  let s ← get
  let (store, v) := d.build s.kept s.world.store
  set { s with world := { s.world with store } }
  return v

def buildAll (ds : List Draft) : Hosted (List Value) := ds.mapM build

def look (v : Value) : Hosted Snapshot := do Snapshot.take (← get).world.store ampleFuel false v

def keep (name : Text) (v : Value) : Hosted Unit :=
  modify fun s => { s with kept := s.kept.insert name v }

def keptValue (name : Text) : Hosted Value := do return ((← get).kept.find? name).getD .unit

def addOperator (name : Text) (precedence : Nat) : Hosted Unit := do
  match (← get).engine.addOperator name precedence with
  | .ok engine => modify fun s => { s with engine }
  | .error e => throw (.error e)

def viewScope : Hosted (List EntryView) := do
  (← get).scope.oldestFirst.mapM fun e => do
    return { name := e.name, value := ← look e.value, isConst := e.isConst, exported := e.exported }

def push (name : Text) (v : Value) (isConst : Bool) : Hosted Unit :=
  modify fun s => { s with scope := s.scope.push name v isConst }

/-- Give a variable a new value; a missing one is declared. An alias is written through, and a
constant is refused. -/
def assign (name : Text) (v : Value) : Hosted Unit := do
  let s ← get
  match s.scope.find? name with
  | none => push name v false
  | some entry =>
    if entry.isConst then throw (.cause (.assignmentToConstant name) .nowhere)
    match entry.value with
    | .shared c =>
      let store ← s.world.store.beginWrite c name .nowhere
      set { s with world := { s.world with store := (store.setValue c v).endWrite c } }
    | _ => set { s with scope := s.scope.setValue name v }

/-- The value of a variable, if there is one and it has the type asked for. -/
def value? (name : Text) (t : ValueType) : Hosted (Option Value) := do
  let s ← get
  match s.scope.find? name with
  | none => return none
  | some entry =>
    let v ← s.world.store.flatten ampleFuel entry.value
    return if t = .any ∨ v.plainType = t then some v else none

def rewind (size : Nat) : Hosted Nat := do
  modify fun s => { s with scope := s.scope.rewind size }
  return (← get).scope.length

end Session

end Scripting
