import Scripting.Grammar
import Scripting.Module
import Scripting.Package.Host
import Scripting.Token.Dialect

/-
An engine: everything that is set up once for all scripts. It holds the functions of the host, the
packages, the limits, the dialect, and where modules come from; running a script never changes it.
-/
namespace Scripting

structure Limits where
  callLevels : Nat := 64
  operations : Nat := 0
  exprDepth : Nat := 128
  string : Nat := 0
  array : Nat := 0
  map : Nat := 0
  deriving DecidableEq, Repr

/-- A source of modules: a table of finished modules, or scripts that are run when first needed. There
may be several of each kind. -/
inductive Supplier where
  | table (number : Nat := 0)
  | scripts (number : Nat := 0)
  deriving DecidableEq, Repr

inductive Resolver where
  | single (s : Supplier)
  /-- The first supplier that knows a path supplies it. -/
  | chain (suppliers : List Supplier)
  deriving DecidableEq, Repr

def Resolver.cleared : Resolver → Resolver
  | single s => single s
  | chain _ => chain []

structure Engine where
  arithmetic : Arithmetic := .checked
  /-- The functions of the host. -/
  globals : Module := {}
  /-- Further functions, searched in this order. -/
  packages : List Module := []
  /-- Types that go by another name. -/
  typeNames : List (ValueType × Text) := []
  disabled : List Text := []
  operators : OperatorTable := []
  limits : Limits := {}
  /-- Watch the number of operations; a positive number asks for a stop when it is reached. -/
  progress : Option Nat := none
  resolver : Option Resolver := none
  /-- Somebody listens to `print` and `debug`. -/
  hasListener : Bool := true

namespace Engine

def standard : Engine := { packages := [Package.coreModule] }

def raw : Engine := { hasListener := false }

def dialect (engine : Engine) : Dialect where
  disabled := engine.disabled
  operators := engine.operators
  maxString := engine.limits.string

def typeName (engine : Engine) (t : ValueType) : Text :=
  match engine.typeNames.find? fun entry => entry.1 = t with
  | some (_, name) => name
  | none => t.text

def signatureText (engine : Engine) (name : Text) (types : List ValueType) : Text :=
  Signature.render engine.typeName name types

def nativeModules (engine : Engine) : List Module := engine.globals :: engine.packages

/-- The better of two candidates from different modules; the earlier one wins a tie. -/
def better (best candidate : Option (Overload × Nat)) : Option (Overload × Nat) :=
  match candidate with
  | some (f, cost) => if f.2.isScript then best else Module.cheaper best f cost
  | none => best

/-- The native function for a call: one of exactly the argument types in the first module that has
one, or else the one that takes least. -/
def native? (engine : Engine) (name : Text) (types : List ValueType) (method : Bool) :
    Option Overload :=
  match engine.nativeModules.findSome? fun m => m.withTypes? name types with
  | some f => some f
  | none =>
    (engine.nativeModules.foldl (fun best m =>
      better best (m.promoted? name types method false)) none).map (·.1)

def settings (engine : Engine) (asExpression : Bool) : Grammar.Settings where
  operators := engine.operators
  allowBranch := !asExpression
  allowBlock := !asExpression
  allowClosures := !asExpression
  maxDepth := engine.limits.exprDepth

/-- Compile a script given in pieces, or a single expression. Also gives the number of the next
closure. -/
def compile (engine : Engine) (asExpression : Bool) (pieces : List Text) (nextClosure : Nat) :
    Except Grammar.Stop Script × Nat :=
  Grammar.parse (engine.settings asExpression) asExpression (engine.dialect.tokens pieces)
    nextClosure

def operatorFault? (engine : Engine) (name : Text) : Option Text :=
  if name.isEmpty then some (Text.lit "custom operator name is empty")
  else
    let disabled := engine.disabled.contains name
    match Token.ofText? name with
    | some (.symbol s) =>
      if disabled then none
      else if s.isKeyword then some (Text.inTicks name ++ Text.lit " is a reserved keyword")
      else some (Text.inTicks name ++ Text.lit " is a reserved operator")
    | some (.reserved t) =>
      if t.isIdentifier then none
      else some (Text.inTicks name ++ Text.lit " is a reserved symbol")
    | _ => none

def addOperator (engine : Engine) (name : Text) (precedence : Nat) : Except Error Engine :=
  match engine.operatorFault? name with
  | some detail => .error ⟨.runtime detail, .nowhere⟩
  | none => .ok { engine with operators := engine.operators.insert name (precedence % 256) }

def addNative (engine : Engine) (name : Text) (params : List ValueType) (f : Native)
    (access : Access) : Engine :=
  { engine with globals := engine.globals.setNative name params f access }

def nameType (engine : Engine) (t : ValueType) (name : Text) : Engine :=
  { engine with typeNames := (t, name) :: engine.typeNames }

def addHost (engine : Engine) (set : Package.HostSet) : Engine :=
  let engine := { engine with globals := Package.install engine.globals set.offers }
  if set = .point then engine.nameType .point (Text.lit "Point") else engine

def addPackage (engine : Engine) (package : Module) : Engine :=
  { engine with packages := engine.packages ++ [package] }

def disable (engine : Engine) (symbol : Text) : Engine :=
  { engine with disabled := symbol :: engine.disabled }

end Engine

end Scripting
