import Scripting.Eval.Place
import Scripting.Value.Pointer

/-
Expressions.
-/
namespace Scripting.Eval

variable (engine : Engine) (ev : Evaluator)

def plain (v : Value) : Run Value := if v.isShared then flatten ev v else return v

def evalArgs (args : List Expr) : Run (List Value) := args.mapM ev.eval

def readIndex (container index : Value) (pos : Position) : Run Value := do
  match container with
  | .array items =>
    let i ← arrayIndex ev items.length index pos
    flatten ev (items[i]?.getD .unit)
  | .map entries =>
    let key ← mapKey ev index pos
    match Dict.find? key entries with
    | some v => flatten ev v
    | none => return .unit
  | .string t =>
    let (_, c, _) ← locateChar ev t index pos
    return .char c
  | container =>
    let call : Held Value (Option Value × Value) := do
      let found ← tryMethod engine ev Package.indexGetter [index] pos
      return (found, ← Held.held)
    match ← Held.drop container call with
    | (some v, _) => return v
    | (none, container) =>
      Run.fail (.indexing (.unsupported (engine.typeName (← typeOf ev container)))) pos

def readProperty (container : Value) (name : Text) (pos : Position) : Run Value := do
  match container with
  | .map entries =>
    match Dict.find? name entries with
    | some v => flatten ev v
    | none => return .unit
  | container =>
    let getter := Package.getter name
    let call : Held Value (Option Value × Value) := do
      let found ← tryMethod engine ev getter [] pos
      return (found, ← Held.held)
    match ← Held.drop container call with
    | (some v, _) => return v
    | (none, container) => notFound engine ev getter [container] pos

def arrayHolds (needle : Value) (pos : Position) : List Value → Run Bool
  | [] => return false
  | v :: rest => do
    match ← callByValue engine ev (Text.lit "==") [needle, v] pos with
    | .bool true => return true
    | _ => arrayHolds needle pos rest

def evalMember (left right : Expr) (pos : Position) : Run Value := do
  let needle ← ev.eval left
  let haystack ← ev.eval right
  match haystack with
  | .array items => return .bool (← arrayHolds engine ev needle pos items)
  | .string t =>
    match needle with
    | .string sub => return .bool (sub.occursIn t)
    | .char c => return .bool (Text.occursIn (Utf8.encode c) t)
    | needle => mismatch engine ev "string or char" needle left.pos
  | .map entries =>
    match needle with
    | .string key => return .bool (Dict.contains entries key)
    | .char c => return .bool (Dict.contains entries (Utf8.encode c))
    | needle => mismatch engine ev "string" needle left.pos
  | haystack => mismatch engine ev "array, string or map" haystack right.pos

def evalEntries : List (Text × Value) → List (Text × Expr) → Run (List (Text × Value))
  | found, [] => return found
  | found, (key, e) :: rest => do
    let v ← plain ev (← ev.eval e)
    evalEntries (Dict.insert key v found) rest

def capture (pos : Position) (name : Text) : Run Value := do
  let m ← get
  match m.scope.find? name with
  | none => Run.fail (.variableNotFound name) pos
  | some entry =>
    let (store, shared) := m.store.share entry.value
    set { m.withStore store with scope := m.scope.setValue name shared }
    return shared

def isSharedVariable (name : Text) (pos : Position) : Run Value := do
  match (← get).scope.find? name with
  | none => Run.fail (.variableNotFound name) pos
  | some entry => return .bool entry.value.isShared

/-- Show a value by `print` or `debug`. A function of that name for the value's type gives the
text, if there is one. -/
def announce (service : Service) (v : Value) (pos : Position) : Run Value := do
  let text ← match ← Held.drop [v] (tryNative engine ev service.text false pos) with
    | some (.string t) => pure t
    | some other => displayText ev other
    | none => if service = .print then displayText ev v else debugText ev v
  say engine (if service = .print then .print text else .debug text pos)
  return .unit

def callPointer (name : Text) (args : List Value) (pos : Position) : Run Value :=
  Held.drop none (ev.callNamed name args false pos)

/-- A call of a service word that no script function has taken over. -/
def callService (service : Service) (args : List Expr) (pos : Position) : Run Value := do
  match service, args with
  | .isShared, [arg] =>
    match arg with
    | .var varPos name [] => isSharedVariable name varPos
    | arg =>
      let _ ← ev.eval arg
      return .bool false
  | service, args =>
    let values ← evalArgs ev args
    match service, args, values with
    | .fnPointer, [arg], [v] =>
      match v with
      | .string name => FnPointer.make name pos
      | v => mismatch engine ev "string" v arg.pos
    | .print, _, [v] => announce engine ev .print v pos
    | .debug, _, [v] => announce engine ev .debug v pos
    | .typeOf, _, [v] => return .string (engine.typeName (← typeOf ev v))
    | .call, _, .fn name curry :: rest => callPointer ev name (curry ++ rest) pos
    | .curry, _, .fn name curry :: rest => return .fn name (curry ++ rest)
    | _, _, _ => notFound engine ev service.text values pos

/-- A call of a function in a module: one of its script functions, or a native one. -/
def callQualified (name : Text) (path : List Text) (args : List Expr) (pos : Position) :
    Run Value := do
  let found ← findModule path pos
  let values ← evalArgs ev args
  match found.scriptFn? name values.length true with
  | some f => Held.drop none (callScript engine ev ⟨f, found⟩ values pos)
  | none =>
    let types ← typesOf ev values
    let exact := (found.withTypes? name types).filter fun f => !f.2.isHidden
    match exact.or ((found.promoted? name types false true).map (·.1)) with
    | some f =>
      if f.2.isScript then
        Run.fail (.functionNotFound (joinPath path (engine.signatureText name types))) pos
      else Held.drop values (callNative engine ev f name false pos)
    | none => Run.fail (.functionNotFound (joinPath path (engine.signatureText name types))) pos

/-- A call whose first argument is a plain variable, which a native function gets in place. -/
def callOnVariable (name : Text) (varPos : Position) (variableName : Text) (rest : List Expr)
    (pos : Position) : Run Value := do
  let rest ← evalArgs ev rest
  match (← get).scope.find? variableName with
  | none => Run.fail (.variableNotFound variableName) varPos
  | some entry =>
    let inPlace := Held.behind variableName varPos (tryMethod engine ev name rest pos)
    let found ←
      if entry.isConst then pure none else Run.onVariable variableName entry.value inPlace
    match found with
    | some v => return v
    | none =>
      let v ← readVariable ev varPos variableName []
      callByValue engine ev name (v :: rest) pos

/-- A call without a path that is no service: a script function, or else a native one. -/
def callPlain (name : Text) (args : List Expr) (isOperator : Bool) (pos : Position) :
    Run Value := do
  match ← scriptFn? name args.length false with
  | some target =>
    let values ← evalArgs ev args
    Held.drop none (callScript engine ev target values pos)
  | none =>
    match isOperator, args with
    | false, .var varPos variableName [] :: rest =>
      callOnVariable engine ev name varPos variableName rest pos
    | _, args => callByValue engine ev name (← evalArgs ev args) pos

def evalCall (name : Text) (path : List Text) (args : List Expr) (isOperator : Bool)
    (pos : Position) : Run Value := do
  if !path.isEmpty then callQualified engine ev name path args pos
  else
    match (if isOperator then none else Service.ofText? name) with
    | some service =>
      let overridden := service.isOverridable && (← scriptFn? name args.length false).isSome
      if overridden then callPlain engine ev name args isOperator pos
      else callService engine ev service args pos
    | none => callPlain engine ev name args isOperator pos

/-- Call a function pointer by `call`: the object itself, or the first argument on the object. The
object is let go before it is called itself. -/
def callThrough (object : Expr) (args : List Value) (pos : Position) : Run Value := do
  let direct ← access engine ev object false (do
    match ← Held.held with
    | .fn name curry => return .inl (name, curry)
    | v =>
      match args with
      | .fn name curry :: rest =>
        return .inr (← Held.zoom (some v) (fun this v => this.getD v)
          (ev.callNamed name (curry ++ rest) false pos))
      | args => Held.lift (notFound engine ev Service.call.text (v :: args) pos)
    : Held Value ((Text × List Value) ⊕ Value))
  match direct with
  | .inl (name, curry) => callPointer ev name (curry ++ args) pos
  | .inr v => return v

def evalMethod (object : Expr) (name : Text) (args : List Expr) (pos : Position) : Run Value := do
  match Service.ofText? name, args with
  | some .isShared, [] =>
    match object with
    | .var varPos variableName [] => isSharedVariable variableName varPos
    | object =>
      let _ ← ev.eval object
      return .bool false
  | some .typeOf, [] => return .string (engine.typeName (← typeOf ev (← ev.eval object)))
  | some .curry, args =>
    let values ← evalArgs ev args
    match ← ev.eval object with
    | .fn function curry => return .fn function (curry ++ values)
    | v => notFound engine ev name (v :: values) pos
  | some .call, args => callThrough engine ev object (← evalArgs ev args) pos
  | _, args =>
    let values ← evalArgs ev args
    access engine ev object false (callMethod engine ev name values pos)

def evalExpr (e : Expr) : Run Value := do
  tick engine e.pos
  match e with
  | .int _ n => return .i64 n
  | .float _ f => return .float f
  | .string _ t => return .string t
  | .char _ c => return .char c
  | .bool _ b => return .bool b
  | .unit _ => return .unit
  | .var pos name path => readVariable ev pos name path
  | .this pos =>
    match (← get).this with
    | none => Run.fail (.variableNotFound Reserved.this) pos
    | some v => flatten ev v
  | .call pos name path args isOperator => evalCall engine ev name path args isOperator pos
  | .method pos object name args => evalMethod engine ev object name args pos
  | .property pos object name => readProperty engine ev (← ev.eval object) name pos
  | .index pos object index =>
    let container ← ev.eval object
    let i ← ev.eval index
    readIndex engine ev container i pos
  | .logical _ isAnd left right =>
    let l ← requireBool ev (← ev.eval left) left.pos
    if l != isAnd then return .bool l
    else return .bool (← requireBool ev (← ev.eval right) right.pos)
  | .member pos left right => evalMember engine ev left right pos
  | .block _ body => runBlock ev body
  | .branch _ condition yes no =>
    if ← requireBool ev (← ev.eval condition) condition.pos then ev.eval yes
    else match no with
      | some no => ev.eval no
      | none => return .unit
  | .array pos items =>
    let values ← items.mapM fun item => do plain ev (← ev.eval item)
    checkSize engine (.array values) pos
    return .array values
  | .map pos entries =>
    let values ← evalEntries ev [] entries
    checkSize engine (.map values) pos
    return .map values
  | .closure pos function captured => return .fn function (← captured.mapM (capture pos))

end Scripting.Eval
