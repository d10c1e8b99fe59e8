import Scripting.Script
import Scripting.Token

/-
Where a parse stands: the tokens still to come, and what has been learned about the function body
that is being read.
-/
namespace Scripting.Grammar

structure Settings where
  operators : OperatorTable := []
  allowBranch : Bool := true
  allowBlock : Bool := true
  allowClosures : Bool := true
  /-- Deepest nesting of expressions and blocks, zero for no limit. -/
  maxDepth : Nat := 128

/-- The body of the function, closure or script that is being read. -/
structure Body where
  /-- The variables in scope, oldest first. -/
  locals : List Text := []
  /-- The variables taken from outside, in the order of their first use. -/
  captured : List Text := []
  allowThis : Bool := false
  loopDepth : Nat := 0

def Body.use (b : Body) (name : Text) : Body :=
  if b.locals.contains name || b.captured.contains name then b
  else { b with captured := b.captured ++ [name] }

structure State where
  /-- The tokens before the end of the script. -/
  rest : List PlacedToken
  /-- Where the script ends. -/
  endPos : Position
  /-- The body being read, and the bodies around it. -/
  body : Body := {}
  outer : List Body := []
  depth : Nat := 0
  functions : Dict FnKey ScriptFn := []
  /-- The number of the next closure. -/
  nextClosure : Nat

inductive Stop where
  | fault (e : Error)
  /-- The bound on the number of steps was too small. -/
  | exhausted

abbrev Parse := EStateM Stop State

def failAt {α : Type} (pos : Position) (fault : ParseFault) (detail : Text) : Parse α :=
  throw (.fault ⟨.parsing (some fault) detail, pos⟩)

/-- The token to be read next; past the last one it is the end token. -/
def State.current (s : State) : PlacedToken := s.rest.headD (.eof, s.endPos)

def current : Parse Token := do return (← get).current.1

def currentPos : Parse Position := do return (← get).current.2

def second : Parse Token := do return ((← get).rest.tail.headD (.eof, (← get).endPos)).1

def advance : Parse PlacedToken := do
  let s ← get
  set { s with rest := s.rest.tail }
  return s.current

def check (symbol : Symbol) : Parse Bool := do
  match ← current with
  | .symbol s => return s = symbol
  | _ => return false

def atEnd : Parse Bool := do return (← current).isEof

def accept (symbol : Symbol) : Parse Bool := do
  if ← check symbol then
    let _ ← advance
    return true
  else return false

/-- Number of tokens to come, a bound for every loop that takes one at each turn. -/
def remaining : Parse Nat := do return (← get).rest.length

def unexpected {α : Type} : Parse α := do
  let (token, pos) := (← get).current
  match token with
  | .fault e => failAt pos .badInput e.message
  | .eof => failAt pos .unexpectedEof (Text.lit "Script is incomplete")
  | .reserved t =>
    if t = Reserved.this then
      failAt pos .badInput (Text.lit "'this' can only be used in functions")
    else if t.isIdentifier then
      failAt pos .badInput (Text.inTicks t ++ Text.lit " is a reserved keyword")
    else failAt pos .badInput (Text.inTicks t ++ Text.lit " is a reserved symbol")
  | token => failAt pos .badInput (Text.lit "Unexpected " ++ Text.inTicks token.text)

def fail {α : Type} (fault : ParseFault) (detail : Text) : Parse α := do
  failAt (← currentPos) fault detail

def failUnlessLexed {α : Type} (fault : ParseFault) (detail : Text) : Parse α := do
  match ← current with
  | .fault _ => unexpected
  | _ => fail fault detail

def expect (symbol : Symbol) (detail : Text) : Parse Unit := do
  if ← accept symbol then return () else failUnlessLexed .missingToken detail

def identifier? : Parse (Option Text) := do
  match ← current with
  | .identifier name => return some name
  | _ => return none

def service? : Parse (Option Text) := do
  match ← current with
  | .reserved t => return if (Service.ofText? t).isSome then some t else none
  | _ => return none

def use (name : Text) : Parse Unit := modify fun s => { s with body := s.body.use name }

def nested {α : Type} (settings : Settings) (p : Parse α) : Parse α := do
  let s ← get
  if 0 < settings.maxDepth ∧ settings.maxDepth ≤ s.depth then
    fail .exprTooDeep (Text.lit "Expression exceeds maximum complexity")
  else
    set { s with depth := s.depth + 1 }
    let a ← p
    modify fun s => { s with depth := s.depth - 1 }
    return a

/-- Read something in a body of its own; gives the body as it is afterwards. -/
def inBody {α : Type} (body : Body) (p : Parse α) : Parse (α × Body) := do
  modify fun s => { s with body := body, outer := s.body :: s.outer }
  let a ← p
  let inner := (← get).body
  modify fun s => { s with body := s.outer.headD {}, outer := s.outer.tail }
  return (a, inner)

/-- Read something with the variables declared in it going out of scope afterwards. -/
def inScope {α : Type} (p : Parse α) : Parse α := do
  let mark := (← get).body.locals.length
  let a ← p
  modify fun s => { s with body := { s.body with locals := s.body.locals.take mark } }
  return a

def declare (name : Text) : Parse Unit :=
  modify fun s => { s with body := { s.body with locals := s.body.locals ++ [name] } }

def inLoop {α : Type} (p : Parse α) : Parse α := do
  modify fun s => { s with body := { s.body with loopDepth := s.body.loopDepth + 1 } }
  let a ← p
  modify fun s => { s with body := { s.body with loopDepth := s.body.loopDepth - 1 } }
  return a

/-- Keep a function; one of the same name and number of parameters is replaced. -/
def define (f : ScriptFn) : Parse Unit :=
  modify fun s => { s with functions := s.functions.insert f.key f }

def freshClosure : Parse Nat := do
  let s ← get
  set { s with nextClosure := s.nextClosure + 1 }
  return s.nextClosure

/-- The parts of the grammar that contain each other. At most two of them are entered for each token
that is taken, so the number of tokens bounds how deep they nest. -/
structure Rules where
  expression : Parse Expr
  unary : Parse Expr
  statement : Parse (Option Stmt)
  block : Parse (Position × List Stmt)
  branch : Parse Expr

end Scripting.Grammar
