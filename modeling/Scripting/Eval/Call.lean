import Scripting.Eval.Basic

/-
Calling functions. A script function runs in a frame of its own; a native function gets its first
argument in place.
-/
namespace Scripting.Eval

variable (engine : Engine) (ev : Evaluator)

def execAll (exec : Stmt → Run Value) : Value → List Stmt → Run Value
  | last, [] => return last
  | _, stmt :: rest => do execAll exec (← exec stmt) rest

def runBlock (body : List Stmt) : Run Value := Run.block (execAll ev.exec .unit body)

def runBody (body : List Stmt) : Run Value := fun m =>
  match runBlock ev body m with
  | .error (.returning v) m => .ok v m
  | outcome => outcome

/-- Run in another frame: another scope, library and `this`. Afterwards the caller's frame is back,
without the imports made in between; the held value is what became of `this`. -/
def inFrame {α : Type} (scope : Scope) (library : Module) (k : Run α) : Held (Option Value) α :=
  fun (this, m) =>
    let leave (n : Machine) : Option Value × Machine :=
      (n.this, { n with
        scope := m.scope, library := m.library, this := m.this, depth := m.depth
        imports := n.imports.drop (n.imports.length - m.imports.length) })
    match k { m with scope, library, this, depth := m.depth + 1 } with
    | .ok a n => .ok a (leave n)
    | .error h n => .error h (leave n)

def bindParams (params : List Text) (args : List Value) (scope : Scope) : Scope :=
  (params.zip args).foldl (fun scope (name, v) => scope.push name v false) scope

def callScript (target : Target) (args : List Value) (pos : Position) :
    Held (Option Value) Value := do
  let most := engine.limits.callLevels
  if 0 < most ∧ most ≤ (← get).2.depth then throw (.cause (.stackOverflow most) pos)
  inFrame (bindParams target.function.params args []) target.library
    (runBody ev target.function.body)

def typesOf (args : List Value) : Run (List ValueType) := args.mapM (typeOf ev)

def notFound {α : Type} (name : Text) (args : List Value) (pos : Position) : Run α := do
  Run.fail (.functionNotFound (engine.signatureText name (← typesOf ev args))) pos

def needsFloat (param : ValueType) (v : Value) : Run Bool := do
  if param = .float then return (← typeOf ev v) = .i64 else return false

def toFloat : Value → Value
  | .int .i64 n => .float (Integer.toFloat n)
  | v => v

/-- An argument after the first: a plain value, converted if need be. -/
def passCopy (param : ValueType) (v : Value) : Run Value := do
  if ← needsFloat ev param v then return toFloat (← flatten ev v)
  else if v.isShared then flatten ev v
  else return v

def passCopies : List ValueType → List Value → Run (List Value)
  | p :: ps, v :: vs => do return (← passCopy ev p v) :: (← passCopies ps vs)
  | _, _ => return []

/-- Call a function pointer from native code; hidden functions are out of its reach. -/
def callBack (pos : Position) (fn : Value) (args : List Value) : Held (Option Value) Value :=
  match fn with
  | .fn name curry => ev.callNamed name (curry ++ args) true pos
  | _ => throw (.cause (.runtime (Text.lit "arguments do not match the parameters")) .nowhere)

/-- Put every item of an array through a function pointer, in place. -/
def applyAll (pos : Position) (fn : Value) : List Value → List Value → Held (List Value) Unit
  | _, [] => return ()
  | done, v :: rest => do
    let w ← Held.lift (Held.drop none (callBack ev pos fn [v]))
    Held.setHeld (done ++ w :: rest)
    applyAll pos fn (done ++ [w]) rest

/-- Hold the first of the held arguments as the value a method works on. -/
def firstAsThis (k : Held (Option Value) Value) : Held (List Value) Value := do
  let args ← Held.held
  Held.zoom args.head?
    (fun this args => match this with
      | some v => v :: args.tail
      | none => args) k

/-- Run what a native function does on its arguments, which are held. -/
def applyNative (f : Native) (name : Text) (pos : Position) : Held (List Value) Value := do
  let args ← Held.held
  let finish (a : Applied) : Held (List Value) Value := do
    Held.setHeld a.args
    match a.result with
    | .ok v => return v
    | .error h => throw h
  match f, args with
  | .tagged tag, args => return .array (tag :: (← Held.lift (args.mapM (flatten ev))))
  | .host .callWithArg, [fn, v] => Held.lift (Held.drop none (callBack ev pos fn [v]))
  | .host .callWithout, [_, fn] => Held.lift (Held.drop none (callBack ev pos fn []))
  | .host .callOnFirst, [_, fn, v] => firstAsThis (callBack ev pos fn [v])
  | .host .applyAll, [.array items, fn] =>
    Held.zoom items (fun items args => .array items :: args.tail) (applyAll ev pos fn [] items)
    return .ofNat items.length
  | .host .contextInfo, [v] =>
    let t ← Held.lift (typeOf ev v)
    return .array [.string name, .string pos.text, .string (engine.typeName t)]
  | .core f, args => finish (ev.native (.core f) (← get).2.store args)
  | .host f, args => finish (ev.native (.host f) (← get).2.store args)

/-- Run a native function; its errors are put at the place of the call. -/
def runNative (f : Function) (name : Text) (pos : Position) : Held (List Value) Value := fun s =>
  let outcome := match f.body with
    | .native n => applyNative engine ev n name pos s
    | .script _ => .error (.cause (.runtime (Text.lit "bad_function_call")) .nowhere) s
  match outcome with
  | .error (.error e) s => .error (.error (e.located pos)) s
  | outcome => outcome

/-- Run a native function and see that its result, and what a method did to its receiver, keep to
the limits. -/
def runChecked (f : Function) (name : Text) (method : Bool) (pos : Position) :
    Held (List Value) Value := do
  let result ← runNative engine ev f name pos
  checkSize engine result pos
  match ← Held.held with
  | first :: _ => if method then checkSize engine first pos
  | [] => pure ()
  return result

/-- Call a native function on the held arguments. A first argument that is an alias is worked on
behind it; all others, and integers that become floats, are passed as copies. -/
def callNative (f : Overload) (name : Text) (method : Bool) (pos : Position) :
    Held (List Value) Value := do
  match ← Held.held with
  | [] => runChecked engine ev f.2 name method pos
  | first :: rest =>
    let param := f.1.params.headD .any
    let call : Held Value Value := do
      let copies ← Held.lift (passCopies ev f.1.params.tail rest)
      let v ← Held.held
      Held.zoom (v :: copies) (fun args v => args.headD v)
        (runChecked engine ev f.2 name method pos)
    if !method && (← Held.lift (needsFloat ev param first)) then
      let v ← Held.lift (flatten ev first)
      Held.lift (Held.drop (toFloat v) call)
    else Held.zoom first (fun v args => v :: args.tail) (Held.behind [] pos call)

/-- Call the native function that fits the held arguments, if there is one. -/
def tryNative (name : Text) (method : Bool) (pos : Position) : Held (List Value) (Option Value) := do
  let types ← Held.lift (typesOf ev (← Held.held))
  match engine.native? name types method with
  | none => return none
  | some f => return some (← callNative engine ev f name method pos)

def asFirst {α : Type} (rest : List Value) (k : Held (List Value) α) : Held Value α := do
  let v ← Held.held
  Held.zoom (v :: rest) (fun args v => args.headD v) k

def tryMethod (name : Text) (rest : List Value) (pos : Position) : Held Value (Option Value) :=
  asFirst rest (tryNative engine ev name true pos)

/-- Call a native function with values of its own. Values that nothing can compare are unequal. -/
def callByValue (name : Text) (args : List Value) (pos : Position) : Run Value := do
  match ← Held.drop args (tryNative engine ev name false pos) with
  | some v => return v
  | none =>
    if args.length = 2 ∧ name = Text.lit "==" then return .bool false
    else if args.length = 2 ∧ name = Text.lit "!=" then return .bool true
    else notFound engine ev name args pos

/-- Call a method on the held value: a script function with it as `this`, or else a native one. -/
def callMethod (name : Text) (args : List Value) (pos : Position) : Held Value Value := do
  match ← Held.lift (scriptFn? name args.length false) with
  | some target =>
    Held.zoom (some (← Held.held)) (fun this v => this.getD v)
      (callScript engine ev target args pos)
  | none =>
    match ← tryMethod engine ev name args pos with
    | some v => return v
    | none => Held.lift (notFound engine ev name ((← Held.held) :: args) pos)

/-- Call the function of a name on the held value, if there is one. -/
def callNamed (name : Text) (args : List Value) (exposedOnly : Bool) (pos : Position) :
    Held (Option Value) Value := do
  match ← Held.lift (scriptFn? name args.length exposedOnly) with
  | some target => callScript engine ev target args pos
  | none =>
    let this ← Held.held
    let found ← match this with
      | some v =>
        Held.zoom v (fun v _ => some v) (asFirst args (tryNative engine ev name true pos))
      | none => Held.lift (Held.drop args (tryNative engine ev name false pos))
    match found with
    | some v => return v
    | none => Held.lift (notFound engine ev name ((← Held.held).toList ++ args) pos)

end Scripting.Eval
