import Scripting.Dict
import Scripting.Native
import Scripting.Script

/-
Modules: tables of functions, of values and of other modules. Functions of one name with different
parameter types live side by side, and a call is given to the one that fits its arguments best.
-/
namespace Scripting

structure Signature where
  name : Text
  params : List ValueType
  deriving DecidableEq, Repr

namespace Signature

/-- By name, then by number of parameters, then by the parameters in turn. -/
def Before (a b : Signature) : Prop :=
  a.name < b.name ∨ (a.name = b.name ∧ (a.params.length < b.params.length ∨
    (a.params.length = b.params.length ∧
      a.params.map ValueType.rank < b.params.map ValueType.rank)))

instance : LT Signature := ⟨Before⟩

instance : DecidableLT Signature := fun a b =>
  inferInstanceAs (Decidable (a.name < b.name ∨ (a.name = b.name ∧
    (a.params.length < b.params.length ∨ (a.params.length = b.params.length ∧
      a.params.map ValueType.rank < b.params.map ValueType.rank)))))

def render (label : ValueType → Text) (name : Text) (types : List ValueType) : Text :=
  name ++ Text.lit " (" ++ Text.join (Text.lit ", ") (types.map label) ++ Text.lit ")"

def text (s : Signature) : Text := render ValueType.text s.name s.params

/-- The signature of a script function, which takes arguments of every type. -/
def ofScript (name : Text) (arity : Nat) : Signature := ⟨name, List.replicate arity .any⟩

end Signature

inductive FnBody where
  | native (f : Native)
  | script (f : ScriptFn)

structure Function where
  access : Access := .exposed
  body : FnBody

namespace Function

def script? (f : Function) : Option ScriptFn :=
  match f.body with
  | .script s => some s
  | .native _ => none

def isScript (f : Function) : Bool := f.script?.isSome

def isHidden (f : Function) : Bool := f.access = .hidden

end Function

abbrev Overload := Signature × Function

structure Module where
  functions : Dict Signature Function := []
  values : Dict Text Value := []
  modules : List (Text × Module) := []

namespace Module

def setFn (m : Module) (name : Text) (params : List ValueType) (f : Function) : Module :=
  { m with functions := m.functions.insert ⟨name, params⟩ f }

def setNative (m : Module) (name : Text) (params : List ValueType) (f : Native)
    (access : Access) : Module :=
  m.setFn name params { access, body := .native f }

def setVariable (m : Module) (name : Text) (v : Value) : Module :=
  { m with values := m.values.insert name v }

def setModule (m : Module) (name : Text) (sub : Module) : Module :=
  { m with modules := Dict.insert name sub m.modules }

def ofFunctions (functions : Dict FnKey ScriptFn) : Module :=
  { functions := functions.map fun (key, f) =>
      (Signature.ofScript key.name key.arity, { access := f.access, body := .script f }) }

def fn? (m : Module) (s : Signature) : Option Function := m.functions.find? s

def value? (m : Module) (name : Text) : Option Value := m.values.find? name

def module? (m : Module) (name : Text) : Option Module := Dict.find? name m.modules

def scriptFn? (m : Module) (name : Text) (arity : Nat) (exposedOnly : Bool) : Option ScriptFn := do
  let f ← m.fn? (Signature.ofScript name arity)
  if exposedOnly && f.isHidden then none else f.script?

/-- What it takes to give an argument to a parameter: nothing for the same type, one for an integer
where a float is wanted (`fixed` rules that out), two for a parameter that takes everything. -/
def argumentCost (fixed : Bool) (param arg : ValueType) : Option Nat :=
  if param = arg then some 0
  else if param = .any then some 2
  else if param = .float ∧ arg = .i64 ∧ !fixed then some 1
  else none

/-- What it takes to call a function with arguments of these types. The receiver of a method, the
first argument, is never converted. -/
def callCost (method : Bool) : List ValueType → List ValueType → Option Nat
  | [], [] => some 0
  | p :: ps, a :: as => do return (← argumentCost method p a) + (← callCost false ps as)
  | _, _ => none

/-- The cheaper of the best so far and a new candidate; the earlier one wins a tie. -/
def cheaper (best : Option (Overload × Nat)) (f : Overload) (cost : Nat) :
    Option (Overload × Nat) :=
  match best with
  | none => some (f, cost)
  | some (g, least) => if cost < least then some (f, cost) else some (g, least)

def overloads (m : Module) (name : Text) : List Overload :=
  m.functions.filter fun f => f.1.name == name

def promoted? (m : Module) (name : Text) (types : List ValueType) (method exposedOnly : Bool) :
    Option (Overload × Nat) :=
  (m.overloads name).foldl (fun best f =>
    if exposedOnly && f.2.isHidden then best
    else match callCost method f.1.params types with
      | none => best
      | some cost => cheaper best f cost) none

def withTypes? (m : Module) (name : Text) (types : List ValueType) : Option Overload :=
  (m.fn? ⟨name, types⟩).map fun f => (⟨name, types⟩, f)

/-- The function of exactly these types, or else the one that takes least. -/
def resolve? (m : Module) (name : Text) (types : List ValueType) (method : Bool) :
    Option Overload :=
  match m.withTypes? name types with
  | some f => some f
  | none => (m.promoted? name types method false).map (·.1)

def containsFn (m : Module) (name : Text) : Bool := !(m.overloads name).isEmpty

/-- Everything of both modules; the second wins where both have an entry. -/
def combine (m other : Module) : Module where
  functions := m.functions.merge other.functions
  values := m.values.merge other.values
  modules := Dict.merge m.modules other.modules

mutual

/-- Everything of both modules, with the modules inside the second one dissolved into the first. -/
def absorb (m : Module) : Module → Module
  | ⟨functions, values, modules⟩ =>
    let m := absorbAll m modules
    { m with
      functions := m.functions.merge functions
      values := m.values.merge values }

def absorbAll (m : Module) : List (Text × Module) → Module
  | [] => m
  | (_, sub) :: rest => absorbAll (absorb m sub) rest

end

end Module

def Script.library (script : Script) : Module := Module.ofFunctions script.functions

end Scripting
