import Scripting.Dict
import Scripting.Number.Fixed
import Scripting.Position
import Scripting.Text.Utf8

/-
The structure of a script: expressions, statements, and the functions that it defines. Closures are
functions too; their body is kept with the functions and the expression only names it.
-/
namespace Scripting

/-- How the names of closures start. No script can write such a name. -/
def closureMark : Text := Text.lit "anon$"

def closureName (id : Nat) : Text := closureMark ++ Text.ofNat id

mutual

inductive Expr where
  | int (pos : Position) (n : Integer)
  | float (pos : Position) (f : Float)
  | char (pos : Position) (c : CodePoint)
  | string (pos : Position) (t : Text)
  | bool (pos : Position) (b : Bool)
  | unit (pos : Position)
  /-- A variable, with the modules it is looked up in: `x`, `m::x`, `a::b::x`. -/
  | var (pos : Position) (name : Text) (path : List Text)
  | this (pos : Position)
  | array (pos : Position) (items : List Expr)
  | map (pos : Position) (entries : List (Text × Expr))
  /-- A call, and every operator but the short-circuit ones. An operator never takes its first
  argument in place. -/
  | call (pos : Position) (name : Text) (path : List Text) (args : List Expr) (isOperator : Bool)
  | method (pos : Position) (object : Expr) (name : Text) (args : List Expr)
  | property (pos : Position) (object : Expr) (name : Text)
  | index (pos : Position) (object index : Expr)
  | logical (pos : Position) (isAnd : Bool) (left right : Expr)
  /-- Membership, `left in right`. -/
  | member (pos : Position) (left right : Expr)
  | block (pos : Position) (body : List Stmt)
  | branch (pos : Position) (condition yes : Expr) (no : Option Expr)
  /-- A closure: the function that holds its body, and the variables it captures. -/
  | closure (pos : Position) (function : Text) (captured : List Text)

inductive Stmt where
  | expr (pos : Position) (e : Expr)
  /-- A new variable or constant; without a value it is unit. -/
  | declare (pos : Position) (isConst : Bool) (name : Text) (value : Option Expr)
  /-- An assignment; the operator is empty for a plain one. -/
  | assign (pos : Position) (operator : Text) (target value : Expr)
  /-- A loop; without a condition it runs until it is left. -/
  | loop (pos : Position) (condition : Option Expr) (body : Expr)
  | each (pos : Position) (name : Text) (items body : Expr)
  | breakLoop (pos : Position)
  | continueLoop (pos : Position)
  | returnValue (pos : Position) (value : Option Expr)
  | throwValue (pos : Position) (value : Option Expr)
  | importModule (pos : Position) (path : Expr) (asName : Option Text)
  | exportNames (pos : Position) (names : List (Text × Option Text))

end

namespace Expr

def pos : Expr → Position
  | int p _ | float p _ | char p _ | string p _ | bool p _ | unit p | var p .. | this p
  | array p _ | map p _ | call p .. | method p .. | property p .. | index p .. | logical p ..
  | member p .. | block p _ | branch p .. | closure p .. => p

def plainName? : Expr → Option Text
  | var _ name [] => some name
  | _ => none

end Expr

namespace Stmt

def pos : Stmt → Position
  | expr p _ | declare p .. | assign p .. | loop p .. | each p .. | breakLoop p | continueLoop p
  | returnValue p _ | throwValue p _ | importModule p .. | exportNames p _ => p

def endsInBlock : Stmt → Bool
  | expr _ (.block ..) | expr _ (.branch ..) | loop .. | each .. => true
  | _ => false

end Stmt

inductive Access where
  | exposed | hidden
  deriving DecidableEq, Repr

/-- A function defined by a script. The parameters of a closure start with what it captures. -/
structure ScriptFn where
  name : Text
  access : Access
  params : List Text
  body : List Stmt
  /-- Where the body stands. -/
  bodyPos : Position
  pos : Position

/-- Script functions are told apart by name and number of parameters. -/
structure FnKey where
  name : Text
  arity : Nat
  deriving DecidableEq, Repr

namespace FnKey

def Before (a b : FnKey) : Prop := a.name < b.name ∨ (a.name = b.name ∧ a.arity < b.arity)

instance : LT FnKey := ⟨Before⟩

instance : DecidableLT FnKey := fun a b =>
  inferInstanceAs (Decidable (a.name < b.name ∨ (a.name = b.name ∧ a.arity < b.arity)))

end FnKey

def ScriptFn.key (f : ScriptFn) : FnKey := ⟨f.name, f.params.length⟩

/-- A compiled script: the statements to run and the functions to call. -/
structure Script where
  statements : List Stmt := []
  functions : Dict FnKey ScriptFn := []

namespace Script

/-- Run the statements of the second script after ours; its functions replace ours. -/
def merge (s other : Script) : Script :=
  ⟨s.statements ++ other.statements, s.functions.merge other.functions⟩

def withoutStatements (s : Script) : Script := { s with statements := [] }

end Script

end Scripting
